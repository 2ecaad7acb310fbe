import FpgaScope.Lib.Ring
import FpgaScope.Lib.Trace
import FpgaScope.Rtl.Uart

/-! What the transmitter puts on the line. `Framed` says what an 8N1 line is, in terms of the
bytes sent on it and the cycles in which they are accepted; the receiver is proved against
this alone. The transmitter is in cycle `k` of a frame when its counters are at bit
`k / DIV`, `k % DIV` cycles into it. -/

namespace FpgaScope

open Clocked

/-- Bit `i` of the frame of a byte: start, data from the low end, stop. -/
def lineBit (b : Byte) (i : ℕ) : Bool := if i < 10 then (1#1 ++ b ++ 0#1).getLsbD i else true

theorem lineBit_start (b : Byte) : lineBit b 0 = false := by
  rw [lineBit, if_pos (by decide), BitVec.getLsbD_append, if_pos (by decide)]
  rfl

theorem lineBit_data (b : Byte) {i : ℕ} (hi : i < 8) : lineBit b (i + 1) = b.getLsbD i := by
  rw [lineBit, if_pos (by omega), BitVec.getLsbD_append, if_neg (by omega), BitVec.getLsbD_append,
    if_pos (by omega), Nat.add_sub_cancel]

theorem lineBit_stop (b : Byte) : lineBit b 9 = true := by
  rw [lineBit, if_pos (by decide), BitVec.getLsbD_append, if_neg (by decide), BitVec.getLsbD_append,
    if_neg (by decide)]
  rfl

/-- The line carries the bytes `sent`: each is on it from the cycle after it is accepted, ten
bits of `div` cycles, and otherwise the line is idle. -/
structure Framed (div : ℕ) (sent : ℕ → Option Byte) (line : ℕ → Bool) : Prop where
  bit : ∀ a b k, sent a = some b → k < 10 * div → line (a + 1 + k) = lineBit b (k / div)
  idle : ∀ n, line n = false → ∃ a b k, sent a = some b ∧ k < 10 * div ∧ n = a + 1 + k
  apart : ∀ a a' b b', sent a = some b → sent a' = some b' → a < a' → a + 10 * div < a'

theorem Uart.lt_cntW {div : ℕ} (h : 2 ≤ div) : div < 2 ^ Uart.cntW div := by
  have hle := Nat.le_pow_clog (b := 2) (by norm_num) div
  unfold Uart.cntW
  split
  · omega
  · rw [pow_succ]
    omega

theorem Uart.load_toNat {div n : ℕ} (h : 2 ≤ div) (hn : n < div) :
    (BitVec.ofNat (Uart.cntW div) n).toNat = n := by
  have := Uart.lt_cntW h
  rw [BitVec.toNat_ofNat, Nat.mod_eq_of_lt (by omega)]

/-- A shift register takes a bit in on top. -/
theorem Uart.shiftIn_getLsbD {w : ℕ} (b : Bool) (x : BitVec (w + 1)) {j : ℕ} (hj : j < w + 1) :
    (BitVec.ofBool b ++ x.extractLsb' 1 w).getLsbD j = if j = w then b else x.getLsbD (j + 1) := by
  rw [BitVec.getLsbD_append, BitVec.getLsbD_extractLsb']
  by_cases h : j = w
  · rw [if_neg (by omega), if_pos h, h, Nat.sub_self]
    cases b <;> rfl
  · rw [if_pos (by omega), if_neg h, decide_eq_true (show j < w by omega), Bool.true_and, Nat.add_comm 1 j]

namespace UartTx

variable {div : ℕ}

/-- The transmitter in cycle `k` of the frame of `b`. -/
structure Sending (u : UartTx div) (b : Byte) (k : ℕ) : Prop where
  bits : u.txBits.toNat = 10 - k / div
  cnt : u.txCnt.toNat = div - 1 - k % div
  shift : ∀ j < 10, u.txShift.getLsbD j = lineBit b (k / div + j)
  line : u.uartTx = lineBit b (k / div)

variable (hdiv : 2 ≤ div)
include hdiv

theorem Sending.start {u : UartTx div} (h : u.txBits = 0) (b : Byte) : (u.step b true).Sending b 0 := by
  rw [step, if_pos h, if_pos rfl]
  refine ⟨?_, ?_, fun j hj => ?_, ?_⟩
  · rw [Nat.zero_div]
    rfl
  · rw [Nat.zero_mod]
    exact Uart.load_toNat hdiv (by omega)
  · rw [Nat.zero_div, Nat.zero_add, lineBit, if_pos hj]
  · rw [Nat.zero_div, lineBit_start]

omit hdiv in
theorem Sending.busy {u : UartTx div} {b : Byte} {k : ℕ} (h : u.Sending b k) (hk : k < 10 * div) :
    u.txBits ≠ 0 := fun h0 => by
  have hbits := h.bits
  have hbit : k / div < 10 := Nat.div_lt_of_lt_mul (by omega)
  rw [h0] at hbits
  change 0 = _ at hbits
  omega

omit hdiv in
/-- A cycle within a bit. -/
theorem Sending.wait {u : UartTx div} {b : Byte} {k : ℕ} (h : u.Sending b k) (hk : k < 10 * div)
    (hslot : k % div + 1 < div) (d : Byte) (v : Bool) : (u.step d v).Sending b (k + 1) := by
  obtain ⟨hturn, hnext⟩ := Ring.next_slot hslot
  have hne : u.txCnt ≠ 0 := fun h0 => by
    have hcnt := h.cnt
    rw [h0] at hcnt
    change 0 = _ at hcnt
    omega
  rw [step, if_neg (h.busy hk), if_pos hne]
  refine ⟨by rw [hturn]; exact h.bits, ?_, by rw [hturn]; exact h.shift, by rw [hturn]; exact h.line⟩
  rw [hnext, Ring.toNat_pred hne, h.cnt]
  omega

/-- From one bit to the next. -/
theorem Sending.turn {u : UartTx div} {b : Byte} {k : ℕ} (h : u.Sending b k) (hk : k + 1 < 10 * div)
    (hslot : k % div = div - 1) (d : Byte) (v : Bool) : (u.step d v).Sending b (k + 1) := by
  obtain ⟨hturn, hnext⟩ := Ring.next_turn (show 0 < div by omega) hslot
  have hbusy := h.busy (show k < 10 * div by omega)
  have hbit : k / div + 1 < 10 := by
    rw [← hturn]
    exact Nat.div_lt_of_lt_mul (by omega)
  have hzero : u.txCnt = 0 := BitVec.eq_of_toNat_eq (by rw [h.cnt, hslot, Nat.sub_self]; rfl)
  have hmore : u.txBits ≠ 1 := fun h1 => by
    have hbits := h.bits
    rw [h1] at hbits
    change 1 = _ at hbits
    omega
  rw [step, if_neg hbusy, if_neg (not_not.mpr hzero), if_pos hmore]
  refine ⟨?_, ?_, fun j hj => ?_, ?_⟩
  · rw [hturn]
    change (u.txBits - 1).toNat = _
    rw [Ring.toNat_pred hbusy, h.bits]
    omega
  · rw [hnext]
    exact Uart.load_toNat hdiv (by omega)
  · rw [hturn]
    change (BitVec.ofBool true ++ u.txShift.extractLsb' 1 9).getLsbD j = _
    rw [Uart.shiftIn_getLsbD true u.txShift hj]
    split
    · rw [lineBit, if_neg (by have := Nat.zero_le (k / div); omega)]
    · rw [h.shift (j + 1) (by omega)]
      congr 1
      omega
  · rw [hturn]
    exact h.shift 1 (by decide)

/-- One more cycle of the same frame. -/
theorem Sending.next {u : UartTx div} {b : Byte} {k : ℕ} (h : u.Sending b k) (hk : k + 1 < 10 * div)
    (d : Byte) (v : Bool) : (u.step d v).Sending b (k + 1) := by
  have hmod := Nat.mod_lt k (show 0 < div by omega)
  by_cases hslot : k % div + 1 < div
  · exact h.wait (by omega) hslot d v
  · exact h.turn hdiv hk (by omega) d v

/-- After the stop bit the transmitter is idle. -/
theorem Sending.last {u : UartTx div} {b : Byte} {k : ℕ} (h : u.Sending b k) (hk : k + 1 = 10 * div)
    (d : Byte) (v : Bool) : (u.step d v).txBits = 0 ∧ (u.step d v).uartTx = true := by
  have hturn : k / div = 9 := by
    rw [show k = div * 9 + (div - 1) by omega, Nat.mul_add_div (by omega), Nat.div_eq_of_lt (by omega)]
  have hslot : k % div = div - 1 := by
    rw [show k = div * 9 + (div - 1) by omega, Nat.mul_add_mod, Nat.mod_eq_of_lt (by omega)]
  have hone : u.txBits = 1 := BitVec.eq_of_toNat_eq (by rw [h.bits, hturn]; rfl)
  have hzero : u.txCnt = 0 := BitVec.eq_of_toNat_eq (by rw [h.cnt, hslot, Nat.sub_self]; rfl)
  rw [step, if_neg (by rw [hone]; decide), if_neg (not_not.mpr hzero), if_neg (not_not.mpr hone), hone]
  exact ⟨rfl, rfl⟩

/-! ### Runs -/

variable {tx : ℕ → UartTx div} {data : ℕ → Byte} {valid : ℕ → Bool} (h₀ : tx 0 = .reset)
  (hstep : ∀ n, tx (n + 1) = (tx n).step (data n) (valid n))

/-- The bytes accepted in a run. -/
def accepts (tx : ℕ → UartTx div) (data : ℕ → Byte) (valid : ℕ → Bool) (n : ℕ) : Option Byte :=
  if valid n && (tx n).txReady then some (data n) else none

omit hdiv in
theorem accepts_eq_some {a : ℕ} {b : Byte} (h : accepts tx data valid a = some b) :
    valid a = true ∧ (tx a).txBits = 0 ∧ data a = b := by
  rw [accepts] at h
  split at h
  · rename_i hc
    rw [Bool.and_eq_true] at hc
    exact ⟨hc.1, beq_iff_eq.mp hc.2, Option.some.inj h⟩
  · cases h

include hstep

theorem sending_run {a k : ℕ} {b : Byte} (h : accepts tx data valid a = some b) (hk : k < 10 * div) :
    (tx (a + 1 + k)).Sending b k := by
  induction k with
  | zero =>
    obtain ⟨hv, hready, hb⟩ := accepts_eq_some h
    rw [Nat.add_zero, hstep, hv, hb]
    exact Sending.start hdiv hready b
  | succ k ih =>
    rw [← Nat.add_assoc, hstep]
    exact (ih (by omega)).next hdiv hk _ _

include h₀

/-- In every cycle the transmitter is idle or within a frame. -/
theorem idle_or_sending (n : ℕ) : ((tx n).txBits = 0 ∧ (tx n).uartTx = true) ∨
    ∃ a b k, accepts tx data valid a = some b ∧ k < 10 * div ∧ n = a + 1 + k := by
  induction n with
  | zero =>
    rw [h₀]
    exact Or.inl ⟨rfl, rfl⟩
  | succ n ih =>
    rcases ih with ⟨hready, -⟩ | ⟨a, b, k, ha, hk, rfl⟩
    · cases hv : valid n with
      | true =>
        refine Or.inr ⟨n, data n, 0, ?_, by omega, rfl⟩
        rw [accepts, hv, txReady, hready]
        rfl
      | false =>
        left
        rw [hstep, hv, step, if_pos hready, if_neg (by decide)]
        exact ⟨hready, rfl⟩
    · by_cases hlast : k + 1 = 10 * div
      · left
        rw [hstep]
        exact (sending_run hdiv hstep ha hk).last hdiv hlast _ _
      · exact Or.inr ⟨a, b, k + 1, ha, by omega, by omega⟩

/-- The transmitter drives an 8N1 line. -/
theorem framed : Framed div (accepts tx data valid) (fun n => (tx n).uartTx) where
  bit a b k ha hk := (sending_run hdiv hstep ha hk).line
  idle n hlow := by
    rcases idle_or_sending hdiv h₀ hstep n with ⟨-, hhigh⟩ | hsending
    · rw [hhigh] at hlow
      cases hlow
    · exact hsending
  apart a a' b b' ha ha' hlt := by
    by_contra hle
    have hsend := sending_run hdiv hstep ha (show a' - (a + 1) < 10 * div by omega)
    rw [show a + 1 + (a' - (a + 1)) = a' by omega] at hsend
    exact hsend.busy (by omega) (accepts_eq_some ha').2.1

end UartTx

end FpgaScope
