import FpgaScope.Capture.Run
import FpgaScope.Host.Decode

/-! Damage to a `DRAIN` response. Behind an intact header `decode_drain` takes what is
left of the data frames for the whole buffer; it never raises. -/

namespace FpgaScope.Host

variable {p : Params}

/-! ### What the parser makes of a piece of the stream -/

theorem parseAll_frame {fr : Frame} (hlen : fr.payload.length ≤ 0xFFFF) (rest : List Byte) :
    parseAll (fr.wire ++ rest) = fr :: parseAll rest := by
  have hlead : leading ((fr.wire ++ rest).drop 0) = some fr :=
    leading_iff.mpr ⟨hlen, List.prefix_append _ _⟩
  have hle : 0 + fr.wire.length ≤ (fr.wire ++ rest).length := by
    rw [List.length_append]
    omega
  rw [parseAll, parseAllFrom_found hlead, parseAllFrom_drop hle, Nat.zero_add, List.drop_left]

/-- The front part of a frame. -/
theorem parseAll_take {fr : Frame} (hlen : fr.payload.length ≤ 0xFFFF) {k : ℕ} (hk : k < fr.wire.length) :
    parseAll (fr.wire.take k) = [] := by
  have htake : (fr.wire.take k).length = k := by
    rw [List.length_take]
    omega
  by_cases h2 : k < 2
  · exact parseAllFrom_short (by omega)
  · have hbyte : ∀ i < k, byteAt (fr.wire.take k) i = byteAt fr.wire i := by
      intro i hi
      rw [byteAt, byteAt, List.getD_eq_getElem?_getD, List.getD_eq_getElem?_getD, List.getElem?_take_of_lt hi]
    have hsync : syncAt (fr.wire.take k) 0 = true := by
      rw [syncAt, hbyte 0 (by omega), hbyte (0 + 1) (by omega)]
      rfl
    refine parseAllFrom_cut ⟨by omega, hsync, ?_⟩
    rw [htake]
    by_cases h5 : k < 5
    · omega
    · have hplen : plenAt (fr.wire.take k) 0 = fr.payload.length := by
        rw [← plenAt_eq, hbyte (0 + 3) (by omega), hbyte (0 + 4) (by omega)]
        change (hi (BitVec.ofNat 16 fr.payload.length) ++ lo (BitVec.ofNat 16 fr.payload.length) :
          BitVec 16).toNat = _
        rw [hi_append_lo, BitVec.toNat_ofNat]
        exact Nat.mod_eq_of_lt (by omega)
      rw [fr.wire_length] at hk
      omega

/-- A frame that fails its CRC, without a second sync in it. -/
structure Broken (bytes : List Byte) : Prop where
  framed : ∃ cmd payload ch cl, payload.length ≤ 0xFFFF ∧
    bytes = scopeSync0 :: scopeSync1 :: (body cmd payload ++ [ch, cl]) ∧
      crc16Ccitt (body cmd payload) 0xFFFF ≠ ch.toNat <<< 8 ||| cl.toNat
  single : ∀ i, 0 < i → syncAt bytes i = false

theorem length_toNat {payload : List Byte} (hlen : payload.length ≤ 0xFFFF) : payload.length =
    (hi (BitVec.ofNat 16 payload.length) ++ lo (BitVec.ofNat 16 payload.length) : BitVec 16).toNat := by
  rw [hi_append_lo, BitVec.toNat_ofNat, Nat.mod_eq_of_lt (by omega)]

theorem Broken.quiet {bytes : List Byte} (h : Broken bytes) {rest : List Byte}
    (hrest : byteAt rest 0 ≠ scopeSync1) {i : ℕ} (hi : i < bytes.length) :
    leading ((bytes ++ rest).drop i) = none ∧ ¬ CutAt (bytes ++ rest) i := by
  rcases Nat.eq_zero_or_pos i with rfl | hpos
  · obtain ⟨cmd, payload, ch, cl, hlen, rfl, hcrc⟩ := h.framed
    have hwhole := length_toNat hlen
    have hsplit : scopeSync0 :: scopeSync1 :: (body cmd payload ++ [ch, cl]) ++ rest =
        scopeSync0 :: scopeSync1 :: cmd :: Host.hi (BitVec.ofNat 16 payload.length) ::
          lo (BitVec.ofNat 16 payload.length) :: (payload ++ ch :: cl :: rest) := by
      rw [body]
      simp
    rw [hsplit]
    refine ⟨?_, fun hcut => ?_⟩
    · rw [List.drop_zero, leading_whole hwhole]
      exact if_neg hcrc
    · have hlong := hcut.2.2
      rw [← plenAt_eq] at hlong
      change _ < _ + (Host.hi (BitVec.ofNat 16 payload.length) ++
        lo (BitVec.ofNat 16 payload.length) : BitVec 16).toNat at hlong
      rw [← hwhole] at hlong
      simp only [List.length_cons, List.length_append] at hlong
      omega
  · have hsync : syncAt (bytes ++ rest) i = false := by
      have hone := h.single i hpos
      rw [syncAt] at hone ⊢
      rw [byteAt_append_left hi]
      by_cases hlast : i + 1 < bytes.length
      · rw [byteAt_append_left hlast, hone]
      · have hedge := byteAt_append_right bytes rest 0
        rw [show bytes.length + 0 = i + 1 by omega] at hedge
        rw [hedge, beq_eq_false_iff_ne.mpr hrest, Bool.and_false]
    exact ⟨leading_unsynced fun hs => Bool.false_ne_true (hsync.symm.trans hs.2),
      fun hcut => Bool.false_ne_true (hsync.symm.trans hcut.2.1)⟩

/-- A broken frame is passed byte by byte. -/
theorem parseAll_broken {bytes : List Byte} (h : Broken bytes) {rest : List Byte}
    (hrest : byteAt rest 0 ≠ scopeSync1) : parseAll (bytes ++ rest) = parseAll rest := by
  have hpass : ∀ i ≤ bytes.length, parseAll (bytes ++ rest) = parseAllFrom (bytes ++ rest) i := by
    intro i hi
    induction i with
    | zero => rfl
    | succ i ih =>
      obtain ⟨hnone, hcut⟩ := h.quiet hrest (show i < bytes.length by omega)
      rw [ih (by omega), parseAllFrom_quiet hnone hcut]
  have hle : bytes.length ≤ (bytes ++ rest).length := by
    rw [List.length_append]
    omega
  rw [hpass _ le_rfl, parseAllFrom_drop hle, List.drop_left]

/-! ### Damaged responses -/

section

variable (core : Core p.storeW p.depthLog2 p.tsW)

/-- Bytes behind the header of a dump, with the chunks whose frames are whole in them: data
frames in any order and number, frames that fail their CRC, and an end anywhere in a frame. -/
inductive Damaged : List Byte → List ℕ → Prop
  | cut {c k : ℕ} : c < p.chunks → k < (dataFrame core c).wire.length →
      Damaged ((dataFrame core c).wire.take k) []
  | whole {c : ℕ} {bytes : List Byte} {found : List ℕ} : c < p.chunks → Damaged bytes found →
      Damaged ((dataFrame core c).wire ++ bytes) (c :: found)
  | broken {b bytes : List Byte} {found : List ℕ} : Broken b → Damaged bytes found →
      Damaged (b ++ bytes) found

variable {core}

theorem Damaged.head {bytes : List Byte} {found : List ℕ} (h : Damaged core bytes found) :
    byteAt bytes 0 ≠ scopeSync1 := by
  have hsync : scopeSync0 ≠ scopeSync1 := by decide
  have hzero : (0 : Byte) ≠ scopeSync1 := by decide
  cases h with
  | @cut c k _ _ =>
    cases k with
    | zero => exact hzero
    | succ k => exact hsync
  | whole _ _ => exact hsync
  | broken hb _ =>
    obtain ⟨cmd, payload, ch, cl, -, rfl, -⟩ := hb.framed
    exact hsync

/-- The parser finds the whole frames and nothing else. -/
theorem Damaged.parseAll_eq {bytes : List Byte} {found : List ℕ} (h : Damaged core bytes found) :
    parseAll bytes = found.map (dataFrame core) := by
  induction h with
  | cut _ hk => exact parseAll_take (dataFrame_length core _) hk
  | whole _ _ ih => rw [parseAll_frame (dataFrame_length core _), ih, List.map_cons]
  | broken hb hrest ih => rw [parseAll_broken hb hrest.head, ih]

/-- The undamaged response. -/
theorem damaged_none (core : Core p.storeW p.depthLog2 p.tsW) (chunks : List ℕ)
    (hall : ∀ c ∈ chunks, c < p.chunks) :
    Damaged core (chunks.flatMap fun c => (dataFrame core c).wire) chunks := by
  have hpos : 0 < p.chunks := by
    obtain ⟨-, hdepth, -⟩ := Drain.spf_eq p
    have : 0 < p.depth := Nat.two_pow_pos _
    omega
  induction chunks with
  | nil => exact .cut (k := 0) hpos (by rw [Frame.wire_length]; omega)
  | cons c chunks ih =>
    rw [List.flatMap_cons]
    exact .whole (hall c (List.mem_cons_self ..)) (ih fun c' hc' => hall c' (List.mem_cons_of_mem _ hc'))

variable (core)

/-- The whole buffer by address. -/
def wholeBuffer : List ℕ :=
  (List.range p.depth).map fun a => (core.uBuf.mem (BitVec.ofNat p.depthLog2 a)).toNat

theorem decodeDrain_dump (pretrigEff : ℤ) : decodeDrain (parseAll core.dump) p.probeW pretrigEff =
    .ok (captureOf core (wholeBuffer core) pretrigEff) := by
  have hdata := (damaged_none core (List.range p.chunks) fun c hc => List.mem_range.mp hc).parseAll_eq
  rw [dump_eq, parseAll_frame (headerFrame_length core), hdata, decodeDrain_header, wordsIn_chunks,
    chunkWords_all, wholeBuffer]

/-- Without the encoder the samples tell the stored words. -/
theorem samples_inj (hrle : p.rleEn = false) {stored stored' : List ℕ} {pretrigEff : ℤ} :
    (captureOf core stored pretrigEff).samples = (captureOf core stored' pretrigEff).samples ↔
      stored = stored' := by
  simp only [captureOf, timeOrder, hrle, Bool.false_eq_true, ↓reduceIte]
  exact reorderWindow_inj

/-- Cut in its header frame the response raises. Behind an intact header nothing does,
whatever follows: the samples are those of the words that arrived, taken for the whole
buffer, and without the encoder they are right only if those words are the whole buffer. -/
theorem drain_loss (pretrigEff : ℤ) :
    (∀ k < (headerFrame core).wire.length,
      decodeDrain (parseAll ((headerFrame core).wire.take k)) p.probeW pretrigEff = .error .noHeader) ∧
    ∀ bytes, ∃ cap full,
      decodeDrain (parseAll ((headerFrame core).wire ++ bytes)) p.probeW pretrigEff = .ok cap ∧
      decodeDrain (parseAll core.dump) p.probeW pretrigEff = .ok full ∧
      cap = captureOf core (wordsIn p (parseAll bytes)) pretrigEff ∧
      full = captureOf core (wholeBuffer core) pretrigEff ∧
      (∀ found, Damaged core bytes found → cap.rawBuffer = found.flatMap (chunkWords core)) ∧
      (p.rleEn = false → ((cap.samples = full.samples ∧ cap.trigPos = full.trigPos) ↔
        cap.rawBuffer = full.rawBuffer)) := by
  refine ⟨fun k hk => ?_, fun bytes => ?_⟩
  · rw [parseAll_take (headerFrame_length core) hk]
    rfl
  · refine ⟨_, _, ?_, decodeDrain_dump core pretrigEff, rfl, rfl, fun found hfound => ?_, fun hrle => ?_⟩
    · rw [parseAll_frame (headerFrame_length core), decodeDrain_header]
    · rw [captureOf, hfound.parseAll_eq, wordsIn_chunks]
    · refine ⟨fun h => (samples_inj core hrle).mp h.1, fun h => ?_⟩
      change wordsIn p (parseAll bytes) = wholeBuffer core at h
      rw [h]
      exact ⟨rfl, rfl⟩

end

/-- With the only data frame of the smallest buffer missing, no samples are left. -/
theorem missing_silent : ¬ ∀ (p : Params) (core : Core p.storeW p.depthLog2 p.tsW) (pretrigEff : ℤ)
    (bytes : List Byte) (found : List ℕ), Damaged core bytes found →
      (∃ e, decodeDrain (parseAll ((headerFrame core).wire ++ bytes)) p.probeW pretrigEff = .error e) ∨
      ∃ cap full, decodeDrain (parseAll ((headerFrame core).wire ++ bytes)) p.probeW pretrigEff = .ok cap ∧
        decodeDrain (parseAll core.dump) p.probeW pretrigEff = .ok full ∧
        cap.samples = full.samples ∧ cap.trigPos = full.trigPos := by
  intro h
  let core : Core oneBit.storeW oneBit.depthLog2 oneBit.tsW := Core.blank _ _ _
  have hlost : Damaged core [] [] := damaged_none core [] fun c hc => by cases hc
  have hcap : decodeDrain (parseAll ((headerFrame core).wire ++ [])) oneBit.probeW 0 =
      .ok (captureOf core [] 0) := by
    rw [parseAll_frame (headerFrame_length core), decodeDrain_header, hlost.parseAll_eq]
    rfl
  rcases h oneBit core 0 [] [] hlost with ⟨e, he⟩ | ⟨cap, full, hc, hf, hsamples, -⟩
  · rw [hcap] at he
    cases he
  · rw [hcap] at hc
    rw [decodeDrain_dump] at hf
    obtain rfl := Except.ok.inj hc
    obtain rfl := Except.ok.inj hf
    have hempty : [] = wholeBuffer core := (samples_inj core rfl).mp hsamples
    have hlen := congrArg List.length hempty
    rw [wholeBuffer, List.length_map, List.length_range] at hlen
    exact absurd hlen (by decide)

end FpgaScope.Host
