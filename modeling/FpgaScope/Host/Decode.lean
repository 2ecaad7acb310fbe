import FpgaScope.Host.Parse
import FpgaScope.Host.Reorder
import FpgaScope.Host.RleDecode
import FpgaScope.Link.Content

/-! `decode_drain` of the host package: the first header frame and every data frame, in the
order in which they come. The chunk index that leads each data frame is not read. -/

namespace FpgaScope.Host

open Protocol

structure Capture where
  samples : List ℕ
  probeW : ℕ
  trigPos : ℤ
  trigIndex : ℕ
  wrapped : Bool
  windowsDone : ℕ
  tsAtTrig : ℕ
  rle : Bool
  rawBuffer : List ℕ
  deriving DecidableEq, Repr

/-- What `decode_drain` raises: its own `ValueError` ("no DRAIN header frame"), the one of
`range` with a zero step, an `IndexError` on a short header. -/
inductive DecodeError where
  | noHeader | zeroStep | index
  deriving DecidableEq, Repr

/-- `nb` bytes from `i` on, least significant first. -/
def sampleAt (body : List Byte) (i nb : ℕ) : ℕ :=
  (List.range nb).foldl (fun v j => v ||| (byteAt body (i + j)).toNat <<< (8 * j)) 0

/-- The loop of `_unpack_samples`; what is left over at the end is dropped. -/
def samplesOf (payload : List Byte) (nb : ℕ) : List ℕ :=
  let body := payload.drop 2
  -- the length of `range(0, len(body) - nb + 1, nb)`
  let count := (body.length + 1 - nb + (nb - 1)) / nb
  (List.range count).map fun k => sampleAt body (k * nb) nb

def unpackSamples (payload : List Byte) (nb : ℕ) : Except DecodeError (List ℕ) :=
  if nb = 0 then .error .zeroStep else .ok (samplesOf payload nb)

/-- `int.from_bytes(_, "big")`. -/
def fromBytesBig (bytes : List Byte) : ℕ := bytes.foldl (fun v b => v * 256 + b.toNat) 0

/-- `words[:stop]`, where a negative `stop` counts from the end. -/
def sliceTo {α : Type*} (words : List α) (stop : ℤ) : List α :=
  words.take (if stop < 0 then words.length + stop else stop).toNat

/-- Time order of the stored words, decoded where they are run-length encoded. -/
def timeOrder (rle : Bool) (stored : List ℕ) (trigIndex : ℤ) (wrapped : Bool) (pretrigEff : ℤ)
    (probeW : ℕ) : List ℕ × ℤ :=
  let r := reorderWindow stored trigIndex wrapped pretrigEff
  if rle then (rleDecodeWords r.1 probeW, (rleDecodeWords (sliceTo r.1 r.2) probeW).length)
  else r

/-- Bytes of a word as the flags and `probe_w` have it. -/
def wordSize (flags : Byte) (probeW : ℕ) : ℕ := ((if flags.getLsbD 0 then probeW + 1 else probeW) + 7) / 8

/-- The words of the data frames, in arrival order. -/
def storedParts (frames : List Frame) (nb : ℕ) : Except DecodeError (List (List ℕ)) :=
  (frames.filter fun f => f.cmd == scopeOpDrainData).mapM fun f => unpackSamples f.payload nb

/-- `decode_drain`. -/
def decodeDrain (frames : List Frame) (probeW : ℕ) (pretrigEff : ℤ) : Except DecodeError Capture :=
  match frames.find? fun f => f.cmd == scopeOpDrain with
  | none => .error .noHeader
  | some hdr =>
    let p := hdr.payload
    if p.length < 4 then .error .index
    else do
      let flags := byteAt p 0
      let rle := flags.getLsbD 0
      let wrapped := flags.getLsbD 1
      let windowsDone := (byteAt p 1).toNat
      let trigIndex := (byteAt p 2).toNat <<< 8 ||| (byteAt p 3).toNat
      let parts ← storedParts frames (wordSize flags probeW)
      let stored := parts.flatten
      let r := timeOrder rle stored trigIndex wrapped pretrigEff probeW
      return { samples := r.1, probeW, trigPos := r.2, trigIndex, wrapped, windowsDone,
               tsAtTrig := fromBytesBig (slice p 4 10), rle, rawBuffer := stored }

/-! ### Stored words -/

theorem byteAt_append_left {l l' : List Byte} {i : ℕ} (h : i < l.length) :
    byteAt (l ++ l') i = byteAt l i :=
  List.getD_append _ _ _ _ h

theorem byteAt_append_right (l l' : List Byte) (i : ℕ) : byteAt (l ++ l') (l.length + i) = byteAt l' i := by
  rw [byteAt, List.getD_append_right _ _ _ _ (Nat.le_add_right _ _), Nat.add_sub_cancel_left, byteAt]

theorem sampleAt_congr {body body' : List Byte} {i i' nb : ℕ}
    (h : ∀ j < nb, byteAt body (i + j) = byteAt body' (i' + j)) :
    sampleAt body i nb = sampleAt body' i' nb := by
  rw [sampleAt, sampleAt]
  refine List.foldl_ext _ _ _ fun v j hj => ?_
  rw [h j (List.mem_range.mp hj)]

/-- The bytes of a natural number, least significant first, put together. -/
theorem foldl_bytes (x n : ℕ) :
    (List.range n).foldl (fun v j => v ||| (x >>> (8 * j) % 2 ^ 8) <<< (8 * j)) 0 = x % 2 ^ (8 * n) := by
  induction n with
  | zero => rw [Nat.mul_zero, pow_zero, Nat.mod_one]; rfl
  | succ n ih =>
    rw [List.range_succ, List.foldl_append, ih]
    apply Nat.eq_of_testBit_eq
    intro i
    simp only [List.foldl_cons, List.foldl_nil, Nat.testBit_or, Nat.testBit_mod_two_pow,
      Nat.testBit_shiftLeft, Nat.testBit_shiftRight]
    by_cases hlt : i < 8 * n
    · simp [hlt, show i < 8 * (n + 1) by omega]
    · by_cases hnext : i < 8 * (n + 1)
      · simp [hlt, hnext, show 8 * n ≤ i by omega, show i - 8 * n < 8 by omega,
          show 8 * n + (i - 8 * n) = i by omega]
      · simp [hlt, hnext, show ¬ i - 8 * n < 8 by omega]

/-- `nb` bytes of a word, least significant first. -/
def leBytes (nb x : ℕ) : List Byte :=
  (List.range nb).map fun i => BitVec.ofNat 8 ((x >>> (8 * i)) &&& 0xFF)

theorem leBytes_length (nb x : ℕ) : (leBytes nb x).length = nb := by
  rw [leBytes, List.length_map, List.length_range]

theorem flatMap_leBytes_length (nb : ℕ) (words : List ℕ) :
    (words.flatMap (leBytes nb)).length = words.length * nb := by
  induction words with
  | nil => simp
  | cons x words ih =>
    rw [List.flatMap_cons, List.length_append, ih, leBytes_length, List.length_cons, Nat.succ_mul,
      Nat.add_comm]

theorem sampleAt_leBytes {nb x : ℕ} (hx : x < 2 ^ (8 * nb)) (rest : List Byte) :
    sampleAt (leBytes nb x ++ rest) 0 nb = x := by
  have hbyte : ∀ j < nb, byteAt (leBytes nb x ++ rest) (0 + j) = BitVec.ofNat 8 ((x >>> (8 * j)) &&& 0xFF) := by
    intro j hj
    rw [Nat.zero_add, byteAt_append_left (by rw [leBytes_length]; exact hj), byteAt, leBytes,
      List.getD_eq_getElem _ _ (by rw [List.length_map, List.length_range]; exact hj),
      List.getElem_map, List.getElem_range]
  have hfold : sampleAt (leBytes nb x ++ rest) 0 nb =
      (List.range nb).foldl (fun v j => v ||| (x >>> (8 * j) % 2 ^ 8) <<< (8 * j)) 0 := by
    rw [sampleAt]
    refine List.foldl_ext _ _ _ fun v j hj => ?_
    rw [hbyte j (List.mem_range.mp hj), BitVec.toNat_ofNat, and_ff, Nat.mod_mod]
  rw [hfold, foldl_bytes, Nat.mod_eq_of_lt hx]

/-- A payload of whole words is unpacked word by word. -/
theorem samplesOf_leBytes {nb : ℕ} (hpos : 0 < nb) (b0 b1 : Byte) {words : List ℕ}
    (h : ∀ x ∈ words, x < 2 ^ (8 * nb)) :
    samplesOf (b0 :: b1 :: words.flatMap (leBytes nb)) nb = words := by
  have hcount : ((words.flatMap (leBytes nb)).length + 1 - nb + (nb - 1)) / nb = words.length := by
    rw [flatMap_leBytes_length]
    rcases Nat.eq_zero_or_pos words.length with hz | hz
    · rw [hz, Nat.zero_mul, show 0 + 1 - nb + (nb - 1) = nb - 1 by omega]
      exact Nat.div_eq_of_lt (by omega)
    · have hle : nb ≤ words.length * nb := Nat.le_mul_of_pos_left _ hz
      rw [show words.length * nb + 1 - nb + (nb - 1) = words.length * nb by omega]
      exact Nat.mul_div_cancel _ hpos
  have hall : (List.range words.length).map
      (fun k => sampleAt (words.flatMap (leBytes nb)) (k * nb) nb) = words := by
    clear hcount
    induction words with
    | nil => rfl
    | cons x words ih =>
      rw [List.length_cons, List.range_succ_eq_map, List.map_cons, List.map_map, List.flatMap_cons,
        Nat.zero_mul, sampleAt_leBytes (h x List.mem_cons_self)]
      conv_rhs => rw [← ih fun y hy => h y (List.mem_cons_of_mem x hy)]
      congr 1
      refine List.map_congr_left fun k _ => sampleAt_congr fun j _ => ?_
      have hshift := byteAt_append_right (leBytes nb x) (words.flatMap (leBytes nb)) (k * nb + j)
      rw [leBytes_length] at hshift
      rw [← hshift, Nat.succ_mul, Nat.add_comm (k * nb) nb, Nat.add_assoc]
  rw [samplesOf]
  simp only [List.drop_succ_cons, List.drop_zero, hcount, hall]

variable {p : Params}

theorem storedBytes_eq (x : BitVec p.storeW) : storedBytes x = leBytes p.nb x.toNat := by
  refine List.map_congr_left fun j _ => BitVec.eq_of_toNat_eq ?_
  rw [BitVec.extractLsb'_toNat, BitVec.toNat_ofNat, and_ff, Nat.mod_mod]

theorem storedBytes_length (x : BitVec p.storeW) : (storedBytes x).length = p.nb := by
  rw [storedBytes_eq, leBytes_length]

theorem nb_pos (p : Params) : 0 < p.nb := by
  have := p.storeW_pos
  unfold Params.nb
  omega

theorem samplesOf_words (b0 b1 : Byte) (words : List (BitVec p.storeW)) :
    samplesOf (b0 :: b1 :: words.flatMap storedBytes) p.nb = words.map BitVec.toNat := by
  have hbytes : words.flatMap storedBytes = (words.map BitVec.toNat).flatMap (leBytes p.nb) := by
    rw [List.flatMap_map]
    exact List.flatMap_congr fun x _ => storedBytes_eq x
  rw [hbytes]
  refine samplesOf_leBytes (nb_pos p) b0 b1 fun y hy => ?_
  obtain ⟨x, -, rfl⟩ := List.mem_map.mp hy
  refine x.isLt.trans_le (Nat.pow_le_pow_right (by norm_num) ?_)
  unfold Params.nb
  omega

theorem mapM_ok {α β ε : Type*} {f : α → Except ε β} {g : α → β} (h : ∀ a, f a = .ok (g a))
    (l : List α) : l.mapM f = .ok (l.map g) := by
  induction l with
  | nil => rfl
  | cons a l ih =>
    rw [List.mapM_cons, h, ih]
    rfl

theorem storedParts_ok {nb : ℕ} (h : 0 < nb) (frames : List Frame) : storedParts frames nb =
    .ok ((frames.filter fun f => f.cmd == scopeOpDrainData).map fun f => samplesOf f.payload nb) :=
  mapM_ok (fun _ => if_neg (by omega)) _

/-- The low bytes of a word, most significant first, put together. -/
theorem fromBytesBig_bytes (n : ℕ) {t : ℕ} (x : BitVec t) :
    fromBytesBig ((List.range n).map fun k => x.extractLsb' (8 * (n - 1 - k)) 8) = x.toNat % 2 ^ (8 * n) := by
  induction n generalizing x with
  | zero => simp [fromBytesBig, Nat.mod_one]
  | succ n ih =>
    have hhigh : (List.range n).map (fun k => x.extractLsb' (8 * (n + 1 - 1 - k)) 8) =
        (List.range n).map fun k => (x >>> 8).extractLsb' (8 * (n - 1 - k)) 8 := by
      refine List.map_congr_left fun k hk => ?_
      have hlt : k < n := List.mem_range.mp hk
      rw [show 8 * (n + 1 - 1 - k) = 8 + 8 * (n - 1 - k) by omega]
      apply BitVec.eq_of_toNat_eq
      rw [BitVec.extractLsb'_toNat, BitVec.extractLsb'_toNat, BitVec.toNat_ushiftRight, Nat.shiftRight_add]
    have hsnoc : ∀ (l : List Byte) (b : Byte), fromBytesBig (l ++ [b]) = fromBytesBig l * 256 + b.toNat :=
      fun l b => by rw [fromBytesBig, fromBytesBig, List.foldl_append, List.foldl_cons, List.foldl_nil]
    have hlow : (x.extractLsb' (8 * (n + 1 - 1 - n)) 8).toNat = x.toNat % 2 ^ 8 := by
      rw [BitVec.extractLsb'_toNat, show 8 * (n + 1 - 1 - n) = 0 by omega, Nat.shiftRight_zero]
    have hpow : 2 ^ (8 * (n + 1)) = 2 ^ 8 * 2 ^ (8 * n) := by
      rw [← pow_add]
      congr 1
      omega
    rw [List.range_succ, List.map_append, List.map_singleton, hsnoc, hhigh, ih, hlow, BitVec.toNat_ushiftRight,
      Nat.shiftRight_eq_div_pow, hpow, Nat.mod_mul]
    omega

/-- The 48 bits of the timestamp. -/
theorem fromBytesBig_six {t : ℕ} (x : BitVec t) :
    fromBytesBig ((List.range 6).map fun k => x.extractLsb' (8 * (5 - k)) 8) = x.toNat % 2 ^ 48 :=
  fromBytesBig_bytes 6 x

/-- What a header and some stored words decode to. -/
def captureFrom (hdr : List Byte) (stored : List ℕ) (probeW : ℕ) (pretrigEff : ℤ) : Capture :=
  let rle := (byteAt hdr 0).getLsbD 0
  let wrapped := (byteAt hdr 0).getLsbD 1
  let trigIndex := (byteAt hdr 2).toNat <<< 8 ||| (byteAt hdr 3).toNat
  let r := timeOrder rle stored trigIndex wrapped pretrigEff probeW
  { samples := r.1, probeW, trigPos := r.2, trigIndex, wrapped, windowsDone := (byteAt hdr 1).toNat
    tsAtTrig := fromBytesBig (slice hdr 4 10), rle, rawBuffer := stored }

/-- Behind its header anything is decoded. -/
theorem decodeDrain_behind {hdr : List Byte} (hlen : 4 ≤ hdr.length) (frames : List Frame) {probeW : ℕ}
    (hpos : 0 < wordSize (byteAt hdr 0) probeW) (pretrigEff : ℤ) :
    decodeDrain (⟨scopeOpDrain, hdr⟩ :: frames) probeW pretrigEff = .ok (captureFrom hdr
      ((frames.filter fun f => f.cmd == scopeOpDrainData).flatMap fun f =>
        samplesOf f.payload (wordSize (byteAt hdr 0) probeW)) probeW pretrigEff) := by
  have hother : ¬ (scopeOpDrain == scopeOpDrainData) = true := by decide
  have hparts := storedParts_ok hpos (⟨scopeOpDrain, hdr⟩ :: frames)
  rw [List.filter_cons, if_neg hother] at hparts
  have hfind : (⟨scopeOpDrain, hdr⟩ :: frames).find? (fun f => f.cmd == scopeOpDrain) =
      some (⟨scopeOpDrain, hdr⟩ : Frame) := rfl
  rw [decodeDrain, hfind]
  simp only [show ¬ hdr.length < 4 by omega, ↓reduceIte, hparts, captureFrom, List.flatMap_def]
  rfl

/-! ### A dump -/

section Dump

variable (core : Core p.storeW p.depthLog2 p.tsW)

def headerFrame : Frame := ⟨scopeOpDrain, core.dumpHeader⟩

def dataFrame (c : ℕ) : Frame := ⟨scopeOpDrainData, core.dumpData c⟩

/-- The words of chunk `c`, in address order. -/
def chunkWords (c : ℕ) : List ℕ :=
  (List.range p.spf).map fun s => (core.uBuf.mem (BitVec.ofNat p.depthLog2 (c * p.spf + s))).toNat

theorem samplesOf_dataFrame (c : ℕ) : samplesOf (dataFrame core c).payload p.nb = chunkWords core c := by
  have hwords := samplesOf_words (hi (BitVec.ofNat 16 c)) (lo (BitVec.ofNat 16 c))
    ((List.range p.spf).map fun s => core.uBuf.mem (BitVec.ofNat p.depthLog2 (c * p.spf + s)))
  rw [List.map_map, List.flatMap_map] at hwords
  exact hwords

theorem headerFrame_length : (headerFrame core).payload.length ≤ 0xFFFF := by
  have hlt := core.windowsDone.isLt
  simp only [headerFrame, Core.dumpHeader, be16, ts48, List.length_append, List.length_cons,
    List.length_nil, List.length_flatMap, List.length_map, List.map_const', List.length_range,
    List.sum_replicate_nat]
  omega

theorem dataFrame_length (c : ℕ) : (dataFrame core c).payload.length ≤ 0xFFFF := by
  have hspf := (Drain.spf_eq p).1
  have hnb := Drain.nb_le p
  simp only [dataFrame, Core.dumpData, be16, List.length_append, List.length_cons, List.length_nil,
    List.length_flatMap, storedBytes_length, List.map_const', List.length_range, List.sum_replicate_nat,
    hspf]
  omega

/-- A dump is the header frame and the data frames of all chunks. -/
theorem dump_eq : core.dump =
    (headerFrame core).wire ++ (List.range p.chunks).flatMap fun c => (dataFrame core c).wire := by
  have hheader : frameBytes scopeOpDrain core.dumpHeader = (headerFrame core).wire :=
    frameBytes_eq (headerFrame_length core)
  rw [Core.dump, hheader]
  congr 1
  refine List.flatMap_congr fun c _ => ?_
  exact frameBytes_eq (dataFrame_length core c)

theorem slice_ts (core : Core p.storeW p.depthLog2 p.tsW) :
    fromBytesBig (slice core.dumpHeader 4 10) = core.tsAtTrig.toNat % 2 ^ 48 := by
  have hslice : slice core.dumpHeader 4 10 = ts48 core.tsAtTrig := by
    rw [slice, Core.dumpHeader]
    simp only [be16, List.cons_append, List.nil_append, List.drop_succ_cons, List.drop_zero]
    exact List.take_left' (by rw [ts48, List.length_map, List.length_range])
  rw [hslice, ts48, fromBytesBig_six]

theorem header_flags : byteAt core.dumpHeader 0 =
    0#6 ++ BitVec.ofBool core.wrapped ++ BitVec.ofBool p.rleEn := rfl

theorem header_trigIndex :
    (byteAt core.dumpHeader 2).toNat <<< 8 ||| (byteAt core.dumpHeader 3).toNat = core.trigIndex.toNat := by
  have hle := p.depthLog2_le
  have hlt : core.trigIndex.toNat < 2 ^ 16 :=
    core.trigIndex.isLt.trans_le (Nat.pow_le_pow_right (by norm_num) (by omega))
  change (hi (core.trigIndex.setWidth 16)).toNat <<< 8 ||| (lo (core.trigIndex.setWidth 16)).toNat = _
  rw [← BitVec.toNat_append, hi_append_lo, BitVec.toNat_setWidth, Nat.mod_eq_of_lt hlt]

/-- What the header of a dump and some stored words decode to. -/
def captureOf (stored : List ℕ) (pretrigEff : ℤ) : Capture where
  samples := (timeOrder p.rleEn stored core.trigIndex.toNat core.wrapped pretrigEff p.probeW).1
  probeW := p.probeW
  trigPos := (timeOrder p.rleEn stored core.trigIndex.toNat core.wrapped pretrigEff p.probeW).2
  trigIndex := core.trigIndex.toNat
  wrapped := core.wrapped
  windowsDone := core.windowsDone.toNat
  tsAtTrig := core.tsAtTrig.toNat % 2 ^ 48
  rle := p.rleEn
  rawBuffer := stored

/-- The words of the data frames among `frames`. -/
def wordsIn (p : Params) (frames : List Frame) : List ℕ :=
  (frames.filter fun f => f.cmd == scopeOpDrainData).flatMap fun f => samplesOf f.payload p.nb

theorem decodeDrain_header (frames : List Frame) (pretrigEff : ℤ) :
    decodeDrain (headerFrame core :: frames) p.probeW pretrigEff =
      .ok (captureOf core (wordsIn p frames) pretrigEff) := by
  have hlen : 4 ≤ core.dumpHeader.length := by
    simp only [Core.dumpHeader, be16, List.length_append, List.length_cons, List.length_nil]
    omega
  have hrle : (byteAt core.dumpHeader 0).getLsbD 0 = p.rleEn := by
    rw [header_flags]
    cases p.rleEn <;> cases core.wrapped <;> rfl
  have hwrapped : (byteAt core.dumpHeader 0).getLsbD 1 = core.wrapped := by
    rw [header_flags]
    cases p.rleEn <;> cases core.wrapped <;> rfl
  have hsize : wordSize (byteAt core.dumpHeader 0) p.probeW = p.nb := by
    rw [wordSize, hrle]
    rfl
  have hdec := decodeDrain_behind hlen frames (by rw [hsize]; exact nb_pos p) pretrigEff
  rw [hsize] at hdec
  rw [headerFrame, hdec, captureFrom]
  simp only [header_trigIndex, slice_ts, hrle, hwrapped, captureOf, wordsIn]
  rfl

/-- The words of data frames of the dump. -/
theorem wordsIn_chunks (chunks : List ℕ) :
    wordsIn p (chunks.map (dataFrame core)) = chunks.flatMap (chunkWords core) := by
  rw [wordsIn, List.filter_map, List.filter_eq_self.mpr fun c _ => by simp [dataFrame], List.flatMap_map]
  exact List.flatMap_congr fun c _ => samplesOf_dataFrame core c

/-- All chunks together are the buffer by address. -/
theorem chunkWords_all : (List.range p.chunks).flatMap (chunkWords core) =
    (List.range p.depth).map fun a => (core.uBuf.mem (BitVec.ofNat p.depthLog2 a)).toNat := by
  have hfront : ∀ n, (List.range n).flatMap (chunkWords core) =
      (List.range (n * p.spf)).map fun a => (core.uBuf.mem (BitVec.ofNat p.depthLog2 a)).toNat := by
    intro n
    induction n with
    | zero => rw [Nat.zero_mul]; rfl
    | succ n ih =>
      rw [List.range_succ, List.flatMap_append, ih, Nat.succ_mul, List.range_add, List.map_append,
        List.map_map, List.flatMap_singleton]
      rfl
  obtain ⟨hspf, hdepth, -⟩ := Drain.spf_eq p
  rw [hfront, hspf, hdepth]

end Dump

end FpgaScope.Host
