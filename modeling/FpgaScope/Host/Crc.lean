import FpgaScope.Host.Parse
import FpgaScope.Lib.Crc

/-! What the CRC-16 of the frames detects. Flipped bits change the register by the register
of the flips alone, their residue, and a frame passes only with residue zero. A residue is
odd with the number of flips, and sixteen consecutive bits touch three bytes, whose residue
determines the first two of them. -/

namespace FpgaScope.Host

open Crc

/-- `x^12 + x^5 + 1`. -/
def poly : BitVec 16 := 0x1021

theorem poly_zero : poly.getLsbD 0 = true := by decide

theorem poly_parity : parity poly = 1 := by decide

/-- A byte as the register takes it in. -/
def top (b : Byte) : BitVec 16 := b ++ 0#8

theorem top_xor (a b : Byte) : top (a ^^^ b) = top a ^^^ top b := by
  rw [top, top, top, BitVec.xor_append, BitVec.xor_self]

theorem crc16CcittByte_eq (c : BitVec 16) (b : Byte) :
    crc16CcittByte c b = (shift poly)^[8] (c ^^^ top b) := rfl

theorem foldl_crc (c : BitVec 16) (l : List Byte) :
    l.foldl crc16CcittByte c = feed poly 8 c (l.map top) := by
  rw [feed, List.foldl_map]
  rfl

/-- The register of the flips alone. -/
def residue (e : List Byte) : BitVec 16 := e.foldl crc16CcittByte 0

theorem crcOf_xor {l e : List Byte} (h : l.length = e.length) :
    crcOf (List.zipWith (· ^^^ ·) l e) = crcOf l ^^^ residue e := by
  have hmap : (List.zipWith (· ^^^ ·) l e).map top = List.zipWith (· ^^^ ·) (l.map top) (e.map top) := by
    rw [List.map_zipWith, List.zipWith_map]
    simp only [top_xor]
  rw [crcOf, crcOf, residue, foldl_crc, foldl_crc, foldl_crc, hmap, ← feed_xor _ _ _ _ (by simpa using h)]
  rfl

theorem shift_low : ∀ b : Byte, (shift poly)^[8] (0#8 ++ b : BitVec 16) = top b := by decide +kernel

/-- Two bytes fed are sixteen bits fed. -/
theorem feed_two (c : BitVec 16) (h l : Byte) :
    [h, l].foldl crc16CcittByte c = (shift poly)^[16] (c ^^^ (h ++ l)) := by
  have hsplit : (h ++ l : BitVec 16) = top h ^^^ (0#8 ++ l) := by
    rw [top, BitVec.xor_append]
    simp
  rw [List.foldl_cons, List.foldl_cons, List.foldl_nil, crc16CcittByte_eq, crc16CcittByte_eq, ← shift_low l, ← iterate_xor, hsplit, ← BitVec.xor_assoc, ← Function.iterate_add_apply]

/-- A codeword with flips passes only if they leave no residue. -/
theorem residue_of_undetected {c : BitVec 16} {e : List Byte} {eh el : Byte}
    (h : c ^^^ residue e = (hi c ^^^ eh) ++ (lo c ^^^ el)) : residue (e ++ [eh, el]) = 0 := by
  have hsplit : ((hi c ^^^ eh) ++ (lo c ^^^ el) : BitVec 16) = c ^^^ (eh ++ el) := by
    rw [← BitVec.xor_append, hi_append_lo]
  have hres : residue e = eh ++ el := by
    have := congrArg (c ^^^ ·) (h.trans hsplit)
    simpa only [← BitVec.xor_assoc, BitVec.xor_self, BitVec.zero_xor] using this
  rw [residue, List.foldl_append, feed_two, ← residue, hres, BitVec.xor_self]
  exact iterate_zero poly 16

/-! ### Odd weight -/

/-- The number of flipped bits. -/
def flips (e : List Byte) : ℕ := (e.map fun b => (List.range 8).countP (b.getLsbD ·)).sum

theorem parity_top : ∀ b : Byte, parity (top b) = ((List.range 8).countP (b.getLsbD ·) : ℕ) := by
  decide +kernel

theorem parity_residue (e : List Byte) : parity (residue e) = (flips e : ZMod 2) := by
  rw [residue, foldl_crc, parity_feed poly_parity, flips, Nat.cast_list_sum, List.map_map, List.map_map]
  have hzero : parity (0 : BitVec 16) = 0 := by decide
  rw [hzero, zero_add]
  exact congrArg List.sum (List.map_congr_left fun b _ => parity_top b)

theorem residue_odd {e : List Byte} (h : Odd (flips e)) : residue e ≠ 0 := by
  intro hzero
  have hp := parity_residue e
  rw [hzero, ZMod.natCast_eq_one_iff_odd.mpr h] at hp
  exact absurd hp (by decide)

/-! ### Bursts -/

/-- Bit `j` of a byte string, each byte from its most significant bit on. -/
def msbFirst (e : List Byte) (j : ℕ) : Bool := (e.getD (j / 8) 0).getLsbD (7 - j % 8)

/-- Bit `j` of a byte string, each byte from its least significant bit on. -/
def lsbFirst (e : List Byte) (j : ℕ) : Bool := (e.getD (j / 8) 0).getLsbD (j % 8)

/-- All ones lie among sixteen consecutive bits. -/
def Confined (bit : ℕ → Bool) : Prop := ∃ s, ∀ j, bit j = true → s ≤ j ∧ j < s + 16

/-- A burst of at most sixteen bits, in either order of the bits of a byte. -/
def Burst (e : List Byte) : Prop := Confined (msbFirst e) ∨ Confined (lsbFirst e)

/-- The first two bytes of a window of three that leaves no residue. -/
def firstTwo (b : Byte) : BitVec 16 := (unshift poly)^[16] (top b)

theorem window_eq {b₀ b₁ b₂ : Byte} (h : residue [b₀, b₁, b₂] = 0) : b₀ ++ b₁ = firstTwo b₂ := by
  have hstep : residue [b₀, b₁, b₂] = (shift poly)^[8] ((shift poly)^[16] (b₀ ++ b₁) ^^^ top b₂) := by
    have htwo := feed_two 0 b₀ b₁
    rw [show (0 : BitVec 16) ^^^ (b₀ ++ b₁) = b₀ ++ b₁ from BitVec.zero_xor] at htwo
    rw [← htwo]
    rfl
  rw [hstep] at h
  have hz := BitVec.xor_eq_zero_iff.mp (iterate_eq_zero poly_zero h)
  rw [firstTwo, ← hz, iterate_unshift poly_zero]

/-- Bytes of which only three in a row are not zero leave the residue of these three. -/
theorem residue_window {e : List Byte} {i : ℕ} (h : ∀ t, t < i ∨ i + 2 < t → e.getD t 0 = 0)
    (hres : residue e = 0) : residue [e.getD i 0, e.getD (i + 1) 0, e.getD (i + 2) 0] = 0 := by
  have hzeros : ∀ c n, (List.replicate n (0 : Byte)).foldl crc16CcittByte c = (shift poly)^[n * 8] c := by
    intro c n
    rw [foldl_crc, List.map_replicate, ← feed_zeros, show top 0 = 0 from BitVec.zero_append_zero]
  -- with zeros appended, the window lies inside
  have hsplit : e ++ List.replicate (i + 3) 0 = List.replicate i 0 ++
      ([e.getD i 0, e.getD (i + 1) 0, e.getD (i + 2) 0] ++ List.replicate e.length 0) := by
    refine List.ext_getElem? fun t => ?_
    by_cases hlt : t < i + 3 + e.length
    · have hleft : (e ++ List.replicate (i + 3) 0)[t]? = some (e.getD t 0) := by
        rw [List.getElem?_append]
        split
        next ht => rw [List.getD_eq_getElem _ _ ht, List.getElem?_eq_getElem ht]
        next ht => rw [List.getElem?_replicate_of_lt (by omega), List.getD_eq_default _ _ (by omega)]
      rw [hleft, List.getElem?_append, List.length_replicate]
      split
      next ht => rw [List.getElem?_replicate_of_lt ht, h t (Or.inl ht)]
      next ht =>
        obtain ⟨k, rfl⟩ := Nat.exists_eq_add_of_le (Nat.le_of_not_lt ht)
        rw [Nat.add_sub_cancel_left]
        match k with
        | 0 | 1 | 2 => rfl
        | k + 3 => rw [h _ (Or.inr (by omega))]; exact (List.getElem?_replicate_of_lt (by omega)).symm
    · rw [List.getElem?_eq_none, List.getElem?_eq_none] <;> simp <;> omega
  have hfold := congrArg residue hsplit
  rw [residue, residue, List.foldl_append, List.foldl_append, List.foldl_append, hzeros, hzeros, hzeros,
    ← residue, hres, iterate_zero, iterate_zero] at hfold
  rw [residue]
  exact iterate_eq_zero poly_zero hfold.symm

/-- No three bytes leave none, when their first two are those the third one calls for. -/
theorem window_zero {e : List Byte} {i : ℕ} (h : ∀ t, t < i ∨ i + 2 < t → e.getD t 0 = 0)
    (hres : residue e = 0)
    (hlast : hi (firstTwo (e.getD (i + 2) 0)) = e.getD i 0 → e.getD (i + 2) 0 = 0) (t : ℕ) :
    e.getD t 0 = 0 := by
  have hwin := window_eq (residue_window h hres)
  have h2 : e.getD (i + 2) 0 = 0 := hlast (by rw [← hwin, hi_append])
  have hnull : firstTwo 0 = 0 := by decide +kernel
  rw [h2, hnull] at hwin
  have h0 : e.getD i 0 = 0 := by rw [← hi_append (e.getD i 0) (e.getD (i + 1) 0), hwin]; rfl
  have h1 : e.getD (i + 1) 0 = 0 := by rw [← lo_append (e.getD i 0) (e.getD (i + 1) 0), hwin]; rfl
  by_cases ht : t < i ∨ i + 2 < t
  · exact h t ht
  · rcases (by omega : t = i ∨ t = i + 1 ∨ t = i + 2) with rfl | rfl | rfl
    exacts [h0, h1, h2]

/-- Sixteen consecutive bits, most significant first: the third byte has only its `k` top bits,
the first one only its `8 - k` low ones. -/
theorem msb_window : ∀ b : Byte, ∀ k < 8, b <<< k = 0 → hi (firstTwo b) >>> (8 - k) = 0 → b = 0 := by
  decide +kernel

/-- The same with the least significant bit first. -/
theorem lsb_window : ∀ b : Byte, ∀ k < 8, b >>> k = 0 → hi (firstTwo b) <<< (8 - k) = 0 → b = 0 := by
  decide +kernel

theorem byte_zero {b : Byte} (h : ∀ q < 8, b.getLsbD q = false) : b = 0 :=
  BitVec.eq_of_getLsbD_eq fun q hq => by rw [h q hq]; simp

theorem residue_msb {e : List Byte} (h : Confined (msbFirst e)) (hres : residue e = 0) (t : ℕ) :
    e.getD t 0 = 0 := by
  obtain ⟨s, hs⟩ := h
  have hbit : ∀ t q, q < 8 → ¬ (s ≤ 8 * t + (7 - q) ∧ 8 * t + (7 - q) < s + 16) →
      (e.getD t 0).getLsbD q = false := by
    intro t q hq hout
    by_contra hset
    refine hout (hs _ ?_)
    rw [msbFirst, show (8 * t + (7 - q)) / 8 = t by omega, show 7 - (8 * t + (7 - q)) % 8 = q by omega]
    simpa using hset
  refine window_zero (i := s / 8) (fun t ht => byte_zero fun q hq => hbit t q hq (by omega)) hres
    (fun hfirst => ?_) t
  refine msb_window _ (s % 8) (Nat.mod_lt _ (by omega)) (byte_zero fun q hq => ?_) (byte_zero fun q hq => ?_)
  · rw [BitVec.getLsbD_shiftLeft]
    by_cases hlt : q < s % 8
    · simp [hlt]
    · rw [hbit (s / 8 + 2) (q - s % 8) (by omega) (by omega), Bool.and_false]
  · rw [hfirst, BitVec.getLsbD_ushiftRight]
    by_cases hlt : 8 - s % 8 + q < 8
    · exact hbit (s / 8) (8 - s % 8 + q) hlt (by omega)
    · exact BitVec.getLsbD_of_ge _ _ (by omega)

theorem residue_lsb {e : List Byte} (h : Confined (lsbFirst e)) (hres : residue e = 0) (t : ℕ) :
    e.getD t 0 = 0 := by
  obtain ⟨s, hs⟩ := h
  have hbit : ∀ t q, q < 8 → ¬ (s ≤ 8 * t + q ∧ 8 * t + q < s + 16) → (e.getD t 0).getLsbD q = false := by
    intro t q hq hout
    by_contra hset
    refine hout (hs _ ?_)
    rw [lsbFirst, show (8 * t + q) / 8 = t by omega, show (8 * t + q) % 8 = q by omega]
    simpa using hset
  refine window_zero (i := s / 8) (fun t ht => byte_zero fun q hq => hbit t q hq (by omega)) hres
    (fun hfirst => ?_) t
  refine lsb_window _ (s % 8) (Nat.mod_lt _ (by omega)) (byte_zero fun q hq => ?_) (byte_zero fun q hq => ?_)
  · rw [BitVec.getLsbD_ushiftRight]
    by_cases hlt : s % 8 + q < 8
    · exact hbit (s / 8 + 2) (s % 8 + q) hlt (by omega)
    · exact BitVec.getLsbD_of_ge _ _ (by omega)
  · rw [hfirst, BitVec.getLsbD_shiftLeft]
    by_cases hlt : q < 8 - s % 8
    · simp [hlt]
    · rw [hbit (s / 8) (q - (8 - s % 8)) (by omega) (by omega), Bool.and_false]

/-- Bursts and odd numbers of flips leave a residue. -/
theorem residue_ne_zero {e : List Byte} (hne : ∃ t, e.getD t 0 ≠ 0) (h : Burst e ∨ Odd (flips e)) :
    residue e ≠ 0 := by
  obtain ⟨t, ht⟩ := hne
  rcases h with (hm | hl) | hodd
  · exact fun hres => ht (residue_msb hm hres t)
  · exact fun hres => ht (residue_lsb hl hres t)
  · exact residue_odd hodd

/-! ### Damaged frames -/

/-- Flips in the command, payload and CRC bytes of a frame with `n` payload bytes that the
CRC is made for. -/
structure FlipPattern (n : ℕ) (e : List Byte) : Prop where
  length : e.length = n + 7
  /-- The sync and the length arrive. -/
  keeps : ∀ k ∈ [0, 1, 3, 4], e.getD k 0 = 0
  nonzero : ∃ t, e.getD t 0 ≠ 0
  detectable : Burst e ∨ Odd (flips e)

/-- The bytes with the flips of `e`. -/
def damaged (bytes e : List Byte) : List Byte := List.zipWith (· ^^^ ·) bytes e

theorem FlipPattern.split {n : ℕ} {e : List Byte} (h : FlipPattern n e) :
    ∃ ec ep eh el, ep.length = n ∧ e = 0 :: 0 :: ec :: 0 :: 0 :: (ep ++ [eh, el]) := by
  obtain ⟨hlen, hkeeps, -, -⟩ := h
  match e, hlen with
  | e0 :: e1 :: ec :: e3 :: e4 :: tail, hlen =>
    have htail : tail.length = n + 2 := by simpa using hlen
    obtain rfl : e0 = 0 := hkeeps 0 (by simp)
    obtain rfl : e1 = 0 := hkeeps 1 (by simp)
    obtain rfl : e3 = 0 := hkeeps 3 (by simp)
    obtain rfl : e4 = 0 := hkeeps 4 (by simp)
    obtain ⟨eh, el, hend⟩ : ∃ eh el, tail.drop n = [eh, el] := by
      have hd : (tail.drop n).length = 2 := by rw [List.length_drop]; omega
      match tail.drop n, hd with
      | [eh, el], _ => exact ⟨eh, el, rfl⟩
    exact ⟨ec, tail.take n, eh, el, by rw [List.length_take]; omega,
      by rw [← hend, List.take_append_drop]⟩

/-- A damaged frame is one of the same length with a CRC that does not match. -/
theorem FlipPattern.mismatch {payload e : List Byte} (h : FlipPattern payload.length e) (cmd : Byte) :
    ∃ cmd' payload' ch cl, payload'.length = payload.length ∧
      damaged (frame cmd payload) e = scopeSync0 :: scopeSync1 :: cmd' ::
        hi (BitVec.ofNat 16 payload.length) :: lo (BitVec.ofNat 16 payload.length) ::
          (payload' ++ [ch, cl]) ∧
      crcOf (body cmd' payload') ≠ ch ++ cl := by
  have hres := residue_ne_zero h.nonzero h.detectable
  obtain ⟨ec, ep, eh, el, hep, rfl⟩ := h.split
  have hxor : ∀ b : Byte, b ^^^ 0 = b := fun b => BitVec.xor_zero
  have hplen : (List.zipWith (· ^^^ ·) payload ep).length = payload.length := by
    rw [List.length_zipWith, hep, Nat.min_self]
  refine ⟨cmd ^^^ ec, List.zipWith (· ^^^ ·) payload ep, hi (crcOf (body cmd payload)) ^^^ eh,
    lo (crcOf (body cmd payload)) ^^^ el, hplen, ?_, fun hcrc => hres ?_⟩
  · rw [damaged, frame, body]
    simp only [List.cons_append, List.nil_append, List.zipWith_cons_cons, hxor]
    rw [List.zipWith_append hep.symm]
    rfl
  · have hbody : body (cmd ^^^ ec) (List.zipWith (· ^^^ ·) payload ep) =
        List.zipWith (· ^^^ ·) (body cmd payload) (ec :: 0 :: 0 :: ep) := by
      rw [body, body, hplen]
      simp only [List.cons_append, List.nil_append, List.zipWith_cons_cons, hxor]
    rw [hbody, crcOf_xor (by simp [body, hep])] at hcrc
    have hzero := residue_of_undetected hcrc
    -- the sync bytes leave nothing
    rw [residue, List.foldl_cons, List.foldl_cons, show crc16CcittByte 0 0 = 0 by decide +kernel,
      show crc16CcittByte 0 0 = 0 by decide +kernel]
    exact hzero

/-- `parse_frame` raises on a damaged frame, whatever follows it. -/
theorem parseFrame_damaged {cmd : ℕ} {payload bytes e : List Byte} (hb : buildFrame cmd payload = .ok bytes)
    (h : FlipPattern payload.length e) (rest : List Byte) :
    parseFrame (damaged bytes e ++ rest) 0 = .error .crc := by
  obtain ⟨hlen, rfl⟩ := buildFrame_ok hb
  obtain ⟨cmd', payload', ch, cl, hpay, hbytes, hcrc⟩ := h.mismatch (BitVec.ofNat 8 cmd)
  have hplen : payload'.length = (hi (BitVec.ofNat 16 payload.length) ++
      lo (BitVec.ofNat 16 payload.length) : BitVec 16).toNat := by
    rw [hi_append_lo, BitVec.toNat_ofNat, Nat.mod_eq_of_lt (by omega), hpay]
  have hbuf : damaged (frame (BitVec.ofNat 8 cmd) payload) e ++ rest = scopeSync0 :: scopeSync1 :: cmd' ::
      hi (BitVec.ofNat 16 payload.length) :: lo (BitVec.ofNat 16 payload.length) ::
        (payload' ++ ch :: cl :: rest) := by
    rw [hbytes]
    simp
  have hlead : leading (damaged (frame (BitVec.ofNat 8 cmd) payload) e ++ rest) = none := by
    rw [hbuf, leading_whole hplen, if_neg]
    rw [crc16Ccitt_eq, crc_eq_iff, body_eq hplen]
    rintro ⟨rfl, rfl⟩
    exact hcrc (hi_append_lo _).symm
  rw [hbuf] at hlead ⊢
  have hsync : syncAt (scopeSync0 :: scopeSync1 :: cmd' :: hi (BitVec.ofNat 16 payload.length) ::
      lo (BitVec.ofNat 16 payload.length) :: (payload' ++ ch :: cl :: rest)) 0 = true := rfl
  rw [parseFrame_sync (by simp) hsync, frameAt_whole (by simp) hsync ?_, List.drop_zero, hlead]
  rw [← plenAt_eq]
  change 0 + 7 + (hi _ ++ lo _ : BitVec 16).toNat ≤ _
  rw [← hplen]
  simp only [List.length_cons, List.length_append]
  omega

end FpgaScope.Host
