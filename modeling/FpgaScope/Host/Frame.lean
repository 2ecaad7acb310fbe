import FpgaScope.Rtl.Drain
import Mathlib.Data.Nat.Bitwise

/-! `crc16_ccitt` and `build_frame` of the host package, on Python integers. The CRC
register of the frame engine holds the same value, byte by byte. -/

namespace FpgaScope.Host

/-- One of the eight turns of the inner loop. -/
def crcShift (crc : ℕ) : ℕ :=
  if crc &&& 0x8000 ≠ 0 then ((crc <<< 1) ^^^ 0x1021) &&& 0xFFFF else (crc <<< 1) &&& 0xFFFF

/-- The loop body of `crc16_ccitt`. -/
def crcByte (crc : ℕ) (b : Byte) : ℕ :=
  (List.range 8).foldl (fun c _ => crcShift c) (crc ^^^ ((b.toNat &&& 0xFF) <<< 8))

def crc16Ccitt (data : List Byte) (crc : ℕ) : ℕ := data.foldl crcByte crc &&& 0xFFFF

/-- `build_frame`; a payload that exceeds `len16` raises. -/
def buildFrame (cmd : ℕ) (payload : List Byte) : Except String (List Byte) :=
  if 0xFFFF < payload.length then .error "payload exceeds len16"
  else
    let body := [BitVec.ofNat 8 (cmd &&& 0xFF), BitVec.ofNat 8 ((payload.length >>> 8) &&& 0xFF),
      BitVec.ofNat 8 (payload.length &&& 0xFF)] ++ payload
    let crc := crc16Ccitt body 0xFFFF
    .ok ([scopeSync0, scopeSync1] ++ body ++
      [BitVec.ofNat 8 ((crc >>> 8) &&& 0xFF), BitVec.ofNat 8 (crc &&& 0xFF)])

/-! ### The CRC register -/

theorem and_ffff (n : ℕ) : n &&& 0xFFFF = n % 2 ^ 16 := Nat.and_two_pow_sub_one_eq_mod n 16

theorem and_ff (n : ℕ) : n &&& 0xFF = n % 2 ^ 8 := Nat.and_two_pow_sub_one_eq_mod n 8

theorem crcShift_toNat (c : BitVec 16) :
    crcShift c.toNat = (if c.getLsbD 15 then (c <<< 1) ^^^ 0x1021#16 else c <<< 1).toNat := by
  have htop : (c.toNat &&& 0x8000 ≠ 0) ↔ c.getLsbD 15 = true := by
    rw [BitVec.getLsbD, show 0x8000 = 2 ^ 15 from rfl, Nat.and_two_pow]
    cases c.toNat.testBit 15 <;> simp
  unfold crcShift
  by_cases h : c.getLsbD 15 = true
  · rw [if_pos (htop.mpr h), if_pos h, and_ffff, BitVec.toNat_xor, BitVec.toNat_shiftLeft, Nat.xor_mod_two_pow]
    rfl
  · rw [if_neg (fun hc => h (htop.mp hc)), if_neg h, and_ffff, BitVec.toNat_shiftLeft]

theorem crcByte_toNat (c : BitVec 16) (b : Byte) :
    crcByte c.toNat b = (crc16CcittByte c b).toNat := by
  have hfold : ∀ (l : List ℕ) (x : BitVec 16), l.foldl (fun c _ => crcShift c) x.toNat =
      (l.foldl (fun c _ => if c.getLsbD 15 then (c <<< 1) ^^^ 0x1021#16 else c <<< 1) x).toNat := by
    intro l
    induction l with
    | nil => intro x; rfl
    | cons _ l ih =>
      intro x
      rw [List.foldl_cons, List.foldl_cons, crcShift_toNat, ih]
  rw [crc16CcittByte, ← hfold, crcByte]
  congr 1
  rw [BitVec.toNat_xor, BitVec.toNat_append, and_ff, Nat.mod_eq_of_lt b.isLt, BitVec.toNat_ofNat,
    Nat.zero_mod, Nat.or_zero]

/-- The CRC of a byte string as the frame engine computes it. -/
def crcOf (data : List Byte) : BitVec 16 := data.foldl crc16CcittByte 0xFFFF

theorem crcOf_append (l l' : List Byte) : crcOf (l ++ l') = l'.foldl crc16CcittByte (crcOf l) :=
  List.foldl_append

theorem crc16Ccitt_eq (data : List Byte) : crc16Ccitt data 0xFFFF = (crcOf data).toNat := by
  have hfold : ∀ (l : List Byte) (x : BitVec 16),
      l.foldl crcByte x.toNat = (l.foldl crc16CcittByte x).toNat := by
    intro l
    induction l with
    | nil => intro x; rfl
    | cons b l ih =>
      intro x
      rw [List.foldl_cons, List.foldl_cons, crcByte_toNat, ih]
  rw [crc16Ccitt, crcOf, and_ffff, ← Nat.mod_eq_of_lt (BitVec.isLt (data.foldl crc16CcittByte 0xFFFF)),
    ← hfold]
  rfl

/-- High and low byte of a 16-bit value. -/
def hi (x : BitVec 16) : Byte := x.extractLsb' 8 8

def lo (x : BitVec 16) : Byte := x.extractLsb' 0 8

theorem hi_eq (x : BitVec 16) : hi x = BitVec.ofNat 8 ((x.toNat >>> 8) &&& 0xFF) := by
  apply BitVec.eq_of_toNat_eq
  rw [hi, BitVec.extractLsb'_toNat, BitVec.toNat_ofNat, and_ff, Nat.mod_mod]

theorem lo_eq (x : BitVec 16) : lo x = BitVec.ofNat 8 (x.toNat &&& 0xFF) := by
  apply BitVec.eq_of_toNat_eq
  rw [lo, BitVec.extractLsb'_toNat, BitVec.toNat_ofNat, and_ff, Nat.mod_mod, Nat.shiftRight_zero]

theorem hi_append (h l : Byte) : hi (h ++ l) = h := by
  apply BitVec.eq_of_getLsbD_eq
  intro i hi
  rw [Host.hi, BitVec.getLsbD_extractLsb', show (h ++ l : BitVec 16).getLsbD (8 + i) = _ from BitVec.getLsbD_append]
  simp [hi]

theorem lo_append (h l : Byte) : lo (h ++ l) = l := by
  apply BitVec.eq_of_getLsbD_eq
  intro i hi
  rw [lo, BitVec.getLsbD_extractLsb', show (h ++ l : BitVec 16).getLsbD (0 + i) = _ from BitVec.getLsbD_append]
  simp [hi]

theorem hi_append_lo (x : BitVec 16) : (hi x ++ lo x : BitVec 16) = x := by
  apply BitVec.eq_of_getLsbD_eq
  intro i hi
  rw [show (Host.hi x ++ lo x : BitVec 16).getLsbD i = _ from BitVec.getLsbD_append, Host.hi, lo,
    BitVec.getLsbD_extractLsb', BitVec.getLsbD_extractLsb', Nat.zero_add]
  by_cases hlt : i < 8
  · simp [hlt]
  · simp [hlt, show i - 8 < 8 by omega, show 8 + (i - 8) = i by omega]

/-- The bytes of a frame between the sync bytes and the CRC. -/
def body (cmd : Byte) (payload : List Byte) : List Byte :=
  [cmd, hi (BitVec.ofNat 16 payload.length), lo (BitVec.ofNat 16 payload.length)] ++ payload

/-- The length bytes of a frame are those of its payload. -/
theorem body_eq {cmd lh ll : Byte} {payload : List Byte}
    (hlen : payload.length = (lh ++ ll : BitVec 16).toNat) : cmd :: lh :: ll :: payload = body cmd payload := by
  have hof : BitVec.ofNat 16 payload.length = lh ++ ll := by rw [hlen, BitVec.ofNat_toNat, BitVec.setWidth_eq]
  rw [body, hof, hi_append, lo_append]
  rfl

def frame (cmd : Byte) (payload : List Byte) : List Byte :=
  [scopeSync0, scopeSync1] ++ body cmd payload ++
    [hi (crcOf (body cmd payload)), lo (crcOf (body cmd payload))]

/-- A payload that fits `len16` is framed as `build_frame` does. -/
theorem buildFrame_eq {cmd : Byte} {payload : List Byte} (h : payload.length ≤ 0xFFFF) :
    buildFrame cmd.toNat payload = .ok (frame cmd payload) := by
  have hlen : (BitVec.ofNat 16 payload.length).toNat = payload.length := by
    rw [BitVec.toNat_ofNat]
    exact Nat.mod_eq_of_lt (by omega)
  have hbody : [BitVec.ofNat 8 (cmd.toNat &&& 0xFF),
      BitVec.ofNat 8 ((payload.length >>> 8) &&& 0xFF),
      BitVec.ofNat 8 (payload.length &&& 0xFF)] ++ payload = body cmd payload := by
    rw [body, hi_eq, lo_eq, hlen, and_ff cmd.toNat, Nat.mod_eq_of_lt cmd.isLt, BitVec.ofNat_toNat,
      BitVec.setWidth_eq]
  rw [buildFrame, if_neg (by omega)]
  simp only [hbody, crc16Ccitt_eq, ← hi_eq, ← lo_eq]
  rfl

theorem buildFrame_ok {cmd : ℕ} {payload bytes : List Byte} (h : buildFrame cmd payload = .ok bytes) :
    payload.length ≤ 0xFFFF ∧ bytes = frame (BitVec.ofNat 8 cmd) payload := by
  have hcmd : buildFrame cmd payload = buildFrame (BitVec.ofNat 8 cmd).toNat payload := by
    have hmod : (BitVec.ofNat 8 cmd).toNat &&& 0xFF = cmd &&& 0xFF := by
      rw [BitVec.toNat_ofNat, and_ff, and_ff, Nat.mod_mod]
    rw [buildFrame, buildFrame, hmod]
  have hlen : payload.length ≤ 0xFFFF := by
    by_contra hlong
    rw [buildFrame, if_pos (by omega)] at h
    cases h
  rw [hcmd, buildFrame_eq hlen] at h
  exact ⟨hlen, (Except.ok.inj h).symm⟩

end FpgaScope.Host
