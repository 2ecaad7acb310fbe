import FpgaScope.Host.Damage
import Mathlib.Data.List.Rotate

/-! The wire format of a `DRAIN`, on Python integers: a header frame and the stored words in
chunks. Frames that `build_frame` builds are found again one by one, whatever their payloads
look like, and what is packed is what `decode_drain` unpacks. -/

namespace FpgaScope.Host

open Protocol

/-! ### Frames -/

/-- The concatenation of `build_frame` over some frames. -/
def buildFrames (frames : List Frame) : Except String (List Byte) := do
  let parts ← frames.mapM fun f => buildFrame f.cmd.toNat f.payload
  return parts.flatten

theorem buildFrame_wire {f : Frame} {bytes : List Byte} (h : buildFrame f.cmd.toNat f.payload = .ok bytes) :
    f.payload.length ≤ 0xFFFF ∧ bytes = f.wire := by
  obtain ⟨hlen, rfl⟩ := buildFrame_ok h
  rw [BitVec.ofNat_toNat, BitVec.setWidth_eq]
  exact ⟨hlen, rfl⟩

/-- What `build_frame` builds, `parse_all` finds. -/
theorem parseAll_buildFrames {frames : List Frame} {bytes : List Byte} (h : buildFrames frames = .ok bytes) :
    parseAll bytes = frames := by
  induction frames generalizing bytes with
  | nil =>
    obtain rfl := Except.ok.inj h
    exact parseAllFrom_short (Nat.zero_le _)
  | cons f frames ih =>
    rw [buildFrames, List.mapM_cons] at h
    cases hf : buildFrame f.cmd.toNat f.payload with
    | error e => rw [hf] at h; cases h
    | ok part =>
      rw [hf] at h
      cases hrest : frames.mapM fun f => buildFrame f.cmd.toNat f.payload with
      | error e => rw [hrest] at h; cases h
      | ok parts =>
        rw [hrest] at h
        obtain rfl := Except.ok.inj h
        obtain ⟨hlen, rfl⟩ := buildFrame_wire hf
        have hparts : parseAll parts.flatten = frames := ih (by rw [buildFrames, hrest]; rfl)
        change parseAll (f.wire ++ parts.flatten) = f :: frames
        rw [parseAll_frame hlen, hparts]

/-- Payloads that fit `len16` are built. -/
theorem buildFrames_eq {frames : List Frame} (h : ∀ f ∈ frames, f.payload.length ≤ 0xFFFF) :
    buildFrames frames = .ok (frames.flatMap Frame.wire) := by
  have hparts : (frames.mapM fun f => buildFrame f.cmd.toNat f.payload) = .ok (frames.map Frame.wire) := by
    induction frames with
    | nil => rfl
    | cons f frames ih =>
      rw [List.mapM_cons, buildFrame_eq (h f List.mem_cons_self),
        ih fun g hg => h g (List.mem_cons_of_mem f hg)]
      rfl
  rw [buildFrames, hparts, List.flatMap_def]
  rfl

/-! ### The payloads -/

/-- The fields of a header; what follows them is the metadata of the windows. -/
structure DrainFields where
  flags : Byte
  windowsDone : Byte
  trigIndex : BitVec 16
  tsAtTrig : BitVec 48
  tail : List Byte

namespace DrainFields

variable (h : DrainFields)

def rle : Bool := h.flags.getLsbD 0

def wrapped : Bool := h.flags.getLsbD 1

def payload : List Byte :=
  [h.flags, h.windowsDone] ++ be16 h.trigIndex ++
    ((List.range 6).map fun k => h.tsAtTrig.extractLsb' (8 * (5 - k)) 8) ++ h.tail

end DrainFields

/-- Bits of a stored word. -/
def storeW (probeW : ℕ) (rle : Bool) : ℕ := if rle then probeW + 1 else probeW

/-- Bytes of a stored word. -/
def bytesPer (probeW : ℕ) (rle : Bool) : ℕ := (storeW probeW rle + 7) / 8

/-- `SPF = min(DEPTH, 256)`. -/
def samplesPerFrame (words : List ℕ) : ℕ := min words.length 256

/-- The words of chunk `c`. -/
def chunkOf (words : List ℕ) (c : ℕ) : List ℕ :=
  (words.drop (c * samplesPerFrame words)).take (samplesPerFrame words)

/-- Chunk index and little-endian words. -/
def chunkPayload (nb : ℕ) (words : List ℕ) (c : ℕ) : List Byte :=
  [BitVec.ofNat 8 ((c >>> 8) &&& 0xFF), BitVec.ofNat 8 (c &&& 0xFF)] ++ (chunkOf words c).flatMap (leBytes nb)

/-- The frames of a `DRAIN` response. -/
def drainFrames (probeW : ℕ) (h : DrainFields) (words : List ℕ) : List Frame :=
  ⟨scopeOpDrain, h.payload⟩ :: (List.range (words.length / samplesPerFrame words)).map fun c =>
    ⟨scopeOpDrainData, chunkPayload (bytesPer probeW h.rle) words c⟩

/-! ### Unpacking -/

/-- All chunks together are the words. -/
theorem chunkOf_all {words : List ℕ} (hdiv : samplesPerFrame words ∣ words.length) :
    (List.range (words.length / samplesPerFrame words)).flatMap (chunkOf words) = words := by
  have hfront : ∀ n, (List.range n).flatMap (chunkOf words) = words.take (n * samplesPerFrame words) := by
    intro n
    induction n with
    | zero => rw [Nat.zero_mul, List.take_zero]; rfl
    | succ n ih =>
      rw [List.range_succ, List.flatMap_append, ih, List.flatMap_singleton, Nat.succ_mul, List.take_add]
      rfl
  rw [hfront, Nat.div_mul_cancel hdiv, List.take_length]

theorem samplesPerFrame_dvd {words : List ℕ} {k : ℕ} (hlen : words.length = 2 ^ k) :
    samplesPerFrame words ∣ words.length := by
  unfold samplesPerFrame
  rw [hlen, show 256 = 2 ^ 8 from rfl]
  rcases Nat.le_total k 8 with h | h
  · rw [Nat.min_eq_left (Nat.pow_le_pow_right (by norm_num) h)]
  · rw [Nat.min_eq_right (Nat.pow_le_pow_right (by norm_num) h)]
    exact Nat.pow_dvd_pow 2 h

section
variable {probeW : ℕ} {h : DrainFields} {words : List ℕ}

theorem bytesPer_pos (hW : 1 ≤ probeW) (rle : Bool) : 0 < bytesPer probeW rle := by
  unfold bytesPer storeW
  split <;> omega

theorem wordSize_header : wordSize (byteAt h.payload 0) probeW = bytesPer probeW h.rle := rfl

/-- The data frames hold the words. -/
theorem words_of_frames (hW : 1 ≤ probeW) (hdiv : samplesPerFrame words ∣ words.length)
    (hwords : ∀ x ∈ words, x < 2 ^ storeW probeW h.rle) :
    (((drainFrames probeW h words).tail.filter fun f => f.cmd == scopeOpDrainData).flatMap fun f =>
      samplesOf f.payload (bytesPer probeW h.rle)) = words := by
  have hbits : storeW probeW h.rle ≤ 8 * bytesPer probeW h.rle := by
    unfold bytesPer
    omega
  rw [drainFrames, List.tail_cons, List.filter_map, List.filter_eq_self.mpr fun c _ => by simp,
    List.flatMap_map]
  conv_rhs => rw [← chunkOf_all hdiv]
  refine List.flatMap_congr fun c _ => ?_
  refine samplesOf_leBytes (bytesPer_pos hW _) _ _ fun x hx => ?_
  have hmem : x ∈ words := List.mem_of_mem_drop (List.mem_of_mem_take hx)
  exact (hwords x hmem).trans_le (Nat.pow_le_pow_right (by norm_num) hbits)

theorem header_fields : byteAt h.payload 1 = h.windowsDone ∧
    (byteAt h.payload 2).toNat <<< 8 ||| (byteAt h.payload 3).toNat = h.trigIndex.toNat ∧
    fromBytesBig (slice h.payload 4 10) = h.tsAtTrig.toNat := by
  refine ⟨rfl, ?_, ?_⟩
  · change (hi h.trigIndex).toNat <<< 8 ||| (lo h.trigIndex).toNat = _
    rw [← BitVec.toNat_append, hi_append_lo]
  · have hslice : slice h.payload 4 10 = (List.range 6).map fun k => h.tsAtTrig.extractLsb' (8 * (5 - k)) 8 := by
      rw [slice, DrainFields.payload]
      simp only [be16, List.cons_append, List.nil_append, List.drop_succ_cons, List.drop_zero]
      exact List.take_left' (by rw [List.length_map, List.length_range])
    rw [hslice, fromBytesBig_six, Nat.mod_eq_of_lt h.tsAtTrig.isLt]

end

/-! ### Time order -/

/-- Reordering is a rotation. -/
theorem reorderWindow_rotate {α : Type*} (l : List α) (trigIndexRel : ℤ) (wrapped : Bool) (pretrigEff : ℤ) :
    ∃ k, (reorderWindow l trigIndexRel wrapped pretrigEff).1 = l.rotate k := by
  refine ⟨(oldest l.length trigIndexRel wrapped pretrigEff % l.length).toNat, List.ext_getElem? fun i => ?_⟩
  by_cases hi : i < l.length
  · have hne : (l.length : ℤ) ≠ 0 := by omega
    have hslot : ((oldest l.length trigIndexRel wrapped pretrigEff + i) % l.length).toNat =
        (i + (oldest l.length trigIndexRel wrapped pretrigEff % l.length).toNat) % l.length := by
      zify
      rw [Int.toNat_of_nonneg (Int.emod_nonneg _ hne), Int.toNat_of_nonneg (Int.emod_nonneg _ hne),
        Int.add_emod_emod, add_comm]
    rw [reorderWindow_get l trigIndexRel wrapped pretrigEff hi, List.getElem?_rotate hi, hslot]
  · rw [List.getElem?_eq_none (by rw [reorderWindow_length]; omega),
      List.getElem?_eq_none (by rw [List.length_rotate]; omega)]

/-- The trigger word is at the trigger position. -/
theorem reorderWindow_trigger_word {α : Type*} {l : List α} {trig pre : ℕ} (htrig : trig < l.length)
    (hpre : pre < l.length) : (reorderWindow l trig true pre).1[pre]? = l[trig]? := by
  have hslot : (oldest l.length trig true pre + pre) % (l.length : ℤ) = trig := by
    rw [oldest, if_pos rfl, Int.emod_add_emod, show (trig + (l.length - pre) + pre : ℤ) = trig + l.length by ring,
      Int.add_emod_right]
    exact Int.emod_eq_of_lt (by omega) (by omega)
  rw [reorderWindow_get _ _ _ _ hpre, hslot, Int.toNat_natCast]

/-! ### The round trip -/

/-- A `DRAIN` response built frame by frame comes back: `parse_all` returns the frames,
whatever their payloads look like, and `decode_drain` the fields and words; without the
encoder the samples are a rotation of the words, and of a wrapped capture the trigger word
is at the trigger position. -/
theorem wire_round_trip (probeW depthLog2 : ℕ) (hW : 1 ≤ probeW) (h : DrainFields) (words : List ℕ)
    (hlen : words.length = 2 ^ depthLog2) (hwords : ∀ x ∈ words, x < 2 ^ storeW probeW h.rle)
    (htrig : h.trigIndex.toNat < 2 ^ depthLog2) (bytes : List Byte)
    (hb : buildFrames (drainFrames probeW h words) = .ok bytes) (pretrigEff : ℤ) :
    parseAll bytes = drainFrames probeW h words ∧
    ∃ cap, decodeDrain (parseAll bytes) probeW pretrigEff = .ok cap ∧ cap.rawBuffer = words ∧
      cap.trigIndex = h.trigIndex.toNat ∧ cap.wrapped = h.wrapped ∧
      cap.windowsDone = h.windowsDone.toNat ∧ cap.tsAtTrig = h.tsAtTrig.toNat ∧ cap.rle = h.rle ∧
      (h.rle = false → (∃ k, cap.samples = words.rotate k) ∧
        (h.wrapped = true → ∀ pre : ℕ, pretrigEff = pre → pre < 2 ^ depthLog2 →
          cap.trigPos = pre ∧ cap.samples[pre]? = words[h.trigIndex.toNat]?)) := by
  have hparse := parseAll_buildFrames hb
  obtain ⟨hdone, hti, hts⟩ := header_fields (h := h)
  have hdec := decodeDrain_behind (show 4 ≤ h.payload.length by simp [DrainFields.payload, be16])
    (drainFrames probeW h words).tail (wordSize_header ▸ bytesPer_pos hW h.rle) pretrigEff
  rw [wordSize_header, words_of_frames hW (samplesPerFrame_dvd hlen) hwords] at hdec
  refine ⟨hparse, captureFrom h.payload words probeW pretrigEff, hparse ▸ hdec, rfl, hti, rfl,
    congrArg BitVec.toNat hdone, hts, rfl, fun hrle => ?_⟩
  have horder : timeOrder h.rle words h.trigIndex.toNat h.wrapped pretrigEff probeW =
      reorderWindow words h.trigIndex.toNat h.wrapped pretrigEff := by
    rw [timeOrder, hrle]
    rfl
  have hcap : ((captureFrom h.payload words probeW pretrigEff).samples,
      (captureFrom h.payload words probeW pretrigEff).trigPos) =
        reorderWindow words h.trigIndex.toNat h.wrapped pretrigEff := by
    rw [← horder, ← hti]
    rfl
  obtain ⟨hsamples, hpos⟩ := Prod.ext_iff.mp hcap
  dsimp only at hsamples hpos
  rw [hsamples, hpos]
  refine ⟨reorderWindow_rotate _ _ _ _, ?_⟩
  rintro hwrapped pre rfl hpre
  rw [hwrapped]
  exact ⟨reorderWindow_trigger _ _ _ (by omega), reorderWindow_trigger_word (by omega) (by omega)⟩

/-- Four words that look like two syncs; the second one is the trigger. -/
def syncWords : List ℕ := [0xA5, 0x5C, 0xA5, 0x5C]

def wrappedFields : DrainFields :=
  { flags := 2, windowsDone := 1, trigIndex := 1, tsAtTrig := 77, tail := [0x80, 0x01] }

theorem syncWords_back : ∃ bytes cap, buildFrames (drainFrames 8 wrappedFields syncWords) = .ok bytes ∧
    decodeDrain (parseAll bytes) 8 2 = .ok cap ∧ cap.rawBuffer = syncWords ∧ cap.tsAtTrig = 77 ∧
      cap.samples[2]? = some 0x5C := by
  have hb : buildFrames (drainFrames 8 wrappedFields syncWords) =
      .ok ((drainFrames 8 wrappedFields syncWords).flatMap Frame.wire) := buildFrames_eq (by decide)
  obtain ⟨-, cap, hdec, hraw, -, -, -, hts, -, horder⟩ :=
    wire_round_trip 8 2 (by decide) wrappedFields syncWords rfl (by decide) (by decide) _ hb 2
  exact ⟨_, cap, hb, hdec, hraw, hts, ((horder rfl).2 rfl 2 rfl (by decide)).2⟩

end FpgaScope.Host
