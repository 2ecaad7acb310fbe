import FpgaScope.Xport.Transmit

/-! What the receiver makes of an 8N1 line. It sees the line two cycles late and leaves the idle
state four cycles after a byte is accepted; cycle `j` of its busy time is cycle `j + 1` of the
frame, so it samples bit `i` at `i * DIV + DIV / 2 + 1`, inside the bit for every `DIV ≥ 4`, and
is idle again before the next start bit arrives. -/

namespace FpgaScope

open Clocked

namespace UartRx

variable {div : ℕ}

/-! ### One step -/

section Fields

variable (u : UartRx div) (l : Bool)

theorem step_rxSt : (u.step l).rxSt = u.advance.rxSt := rfl

theorem step_rxCnt : (u.step l).rxCnt = u.advance.rxCnt := rfl

theorem step_rxBit : (u.step l).rxBit = u.advance.rxBit := rfl

theorem step_rxShift : (u.step l).rxShift = u.advance.rxShift := rfl

theorem step_rxData : (u.step l).rxData = u.advance.rxData := rfl

theorem step_rxSync : (u.step l).rxSync = (u.uRxSync.syncQ 0).getLsbD 0 := rfl

theorem step_rxValid : (u.step l).rxValid = u.advance.rxValid := rfl

end Fields

theorem advance_count {u : UartRx div} (hst : u.rxSt ≠ .idle) (hcnt : u.rxCnt ≠ 0) :
    u.advance = { u with rxValid := false, rxCnt := u.rxCnt - 1 } := by
  unfold advance
  cases h : u.rxSt with
  | idle => exact absurd h hst
  | start => simp only [if_pos hcnt]
  | bits => simp only [if_pos hcnt]
  | stop => simp only [if_pos hcnt]

theorem advance_idle {u : UartRx div} (hst : u.rxSt = .idle) :
    u.advance = if !u.rxSync then
        { u with rxValid := false, rxSt := .start, rxCnt := BitVec.ofNat _ (div / 2) }
      else { u with rxValid := false } := by
  unfold advance
  simp only [hst]

theorem advance_start {u : UartRx div} (hst : u.rxSt = .start) (hcnt : u.rxCnt = 0)
    (hsync : u.rxSync = false) :
    u.advance =
      { u with rxValid := false, rxSt := .bits, rxCnt := BitVec.ofNat _ (div - 1), rxBit := 0 } := by
  unfold advance
  simp only [hst, if_neg (not_not.mpr hcnt), hsync, Bool.not_false, if_true]

theorem advance_bits {u : UartRx div} (hst : u.rxSt = .bits) (hcnt : u.rxCnt = 0) :
    u.advance =
      { u with
        rxValid := false
        rxShift := BitVec.ofBool u.rxSync ++ u.rxShift.extractLsb' 1 7
        rxCnt := BitVec.ofNat _ (div - 1)
        rxSt := if u.rxBit = 7 then .stop else .bits
        rxBit := if u.rxBit = 7 then u.rxBit else u.rxBit + 1 } := by
  unfold advance
  simp only [hst, if_neg (not_not.mpr hcnt)]

theorem advance_stop {u : UartRx div} (hst : u.rxSt = .stop) (hcnt : u.rxCnt = 0)
    (hsync : u.rxSync = true) :
    u.advance = { u with rxData := u.rxShift, rxValid := true, rxSt := .idle } := by
  unfold advance
  simp only [hst, if_neg (not_not.mpr hcnt), hsync, if_true]

/-- `rx_valid` rises at the stop bit only. -/
theorem advance_valid {u : UartRx div} (h : u.advance.rxValid = true) :
    u.rxSt = .stop ∧ u.rxCnt = 0 := by
  by_cases hidle : u.rxSt = .idle
  · rw [advance_idle hidle] at h
    split at h <;> cases h
  · by_cases hcnt : u.rxCnt = 0
    · refine ⟨?_, hcnt⟩
      cases hst : u.rxSt with
      | idle => exact absurd hst hidle
      | start =>
        unfold advance at h
        simp only [hst, if_neg (not_not.mpr hcnt)] at h
        split at h <;> cases h
      | bits =>
        rw [advance_bits hst hcnt] at h
        cases h
      | stop => rfl
    · rw [advance_count hidle hcnt] at h
      cases h

/-! ### One frame -/

/-- The receiver in cycle `j` of its busy time, with byte `b` on the line. -/
inductive Receiving (u : UartRx div) (b : Byte) : ℕ → Prop
  | start {j : ℕ} (hj : j ≤ div / 2) (hst : u.rxSt = .start) (hcnt : u.rxCnt.toNat = div / 2 - j) :
      Receiving u b j
  | bits {i : ℕ} (hi : i < 8 * div) (hst : u.rxSt = .bits) (hbit : u.rxBit.toNat = i / div)
      (hcnt : u.rxCnt.toNat = div - 1 - i % div)
      (hshift : ∀ m < i / div, u.rxShift.getLsbD (8 - i / div + m) = b.getLsbD m) :
      Receiving u b (div / 2 + 1 + i)
  | stop {i : ℕ} (hi : i < div) (hst : u.rxSt = .stop) (hcnt : u.rxCnt.toNat = div - 1 - i)
      (hshift : u.rxShift = b) : Receiving u b (div / 2 + 1 + 8 * div + i)

theorem Receiving.ne_idle {u : UartRx div} {b : Byte} {j : ℕ} (h : u.Receiving b j) :
    u.rxSt ≠ .idle := by
  cases h with
  | start _ hst _ => rw [hst]; decide
  | bits _ hst _ _ _ => rw [hst]; decide
  | stop _ hst _ _ => rw [hst]; decide

variable (hdiv : 4 ≤ div)
include hdiv

/-- The middle of bit `i`, where it is sampled. -/
theorem middle_div (i : ℕ) : (div / 2 + 1 + div * i) / div = i := by
  rw [Nat.add_mul_div_left _ _ (by omega), Nat.div_eq_of_lt (by omega), Nat.zero_add]

/-- A cycle in which the counter runs. -/
theorem Receiving.wait {u : UartRx div} {b : Byte} {j : ℕ} (h : u.Receiving b j) (hcnt : u.rxCnt ≠ 0)
    (l : Bool) : (u.step l).Receiving b (j + 1) := by
  have hadv := advance_count h.ne_idle hcnt
  have hpred : (u.step l).rxCnt.toNat = u.rxCnt.toNat - 1 := by
    rw [step_rxCnt, hadv]
    exact Ring.toNat_pred hcnt
  have hst' : (u.step l).rxSt = u.rxSt := by rw [step_rxSt, hadv]
  have hbit' : (u.step l).rxBit = u.rxBit := by rw [step_rxBit, hadv]
  have hshift' : (u.step l).rxShift = u.rxShift := by rw [step_rxShift, hadv]
  have hpos : u.rxCnt.toNat ≠ 0 := fun h0 => hcnt (BitVec.eq_of_toNat_eq h0)
  cases h with
  | start hle hst hc => exact Receiving.start (by omega) (hst'.trans hst) (by omega)
  | @bits i hi hst hbit hc hshift =>
    have hbit8 : i / div < 8 := Nat.div_lt_of_lt_mul (by omega)
    obtain ⟨hturn, hslot⟩ := Ring.next_slot (i := i) (n := div) (by omega)
    have hi' : i + 1 < 8 * div := (Nat.div_lt_iff_lt_mul (by omega)).mp (by rwa [hturn])
    refine Receiving.bits hi' (hst'.trans hst) ?_ ?_ ?_
    · rw [hbit', hturn, hbit]
    · rw [hslot]
      omega
    · rw [hshift', hturn]
      exact hshift
  | @stop i hi hst hc hshift =>
    exact Receiving.stop (i := i + 1) (by omega) (hst'.trans hst) (by omega) (hshift'.trans hshift)

/-- The middle of the start bit. -/
theorem Receiving.genuine {u : UartRx div} {b : Byte} (hst : u.rxSt = .start) (hcnt : u.rxCnt = 0)
    (hsync : u.rxSync = lineBit b ((div / 2 + 1) / div)) (l : Bool) :
    (u.step l).Receiving b (div / 2 + 1) := by
  have hstart : u.rxSync = false := by
    rw [hsync, ← Nat.add_zero (div / 2 + 1), ← Nat.mul_zero div, middle_div hdiv, lineBit_start]
  have hadv := advance_start hst hcnt hstart
  refine Receiving.bits (i := 0) (by omega) ?_ ?_ ?_ ?_
  · rw [step_rxSt, hadv]
  · rw [step_rxBit, hadv, Nat.zero_div]
    rfl
  · rw [step_rxCnt, hadv, Nat.zero_mod]
    exact Uart.load_toNat (by omega) (by omega)
  · intro m hm
    rw [Nat.zero_div] at hm
    omega

/-- The middle of data bit `t`, at the end of the `t`-th count. -/
theorem Receiving.sample {u : UartRx div} {b : Byte} {i t : ℕ} (ht : t < 8) (hi : i + 1 = div * (t + 1))
    (hst : u.rxSt = .bits) (hcnt : u.rxCnt = 0) (hbit : u.rxBit.toNat = t)
    (hshift : ∀ m < t, u.rxShift.getLsbD (8 - t + m) = b.getLsbD m)
    (hsync : u.rxSync = lineBit b ((div / 2 + 1 + i + 1) / div)) (l : Bool) :
    (u.step l).Receiving b (div / 2 + 1 + i + 1) := by
  have hsample : u.rxSync = b.getLsbD t := by
    rw [hsync, Nat.add_assoc, hi, middle_div hdiv, lineBit_data b ht]
  have hadv := advance_bits hst hcnt
  -- the bits so far, the new one on top
  have hshift' : ∀ m < t + 1, (u.step l).rxShift.getLsbD (8 - (t + 1) + m) = b.getLsbD m := by
    intro m hm
    rw [step_rxShift, hadv]
    change (BitVec.ofBool u.rxSync ++ u.rxShift.extractLsb' 1 7).getLsbD _ = _
    rw [Uart.shiftIn_getLsbD _ _ (by omega)]
    split
    · rw [hsample, show m = t by omega]
    · rw [← hshift m (by omega)]
      congr 1
      omega
  have hcnt' : (u.step l).rxCnt.toNat = div - 1 := by
    rw [step_rxCnt, hadv]
    exact Uart.load_toNat (by omega) (by omega)
  by_cases hlast : u.rxBit = 7
  · obtain rfl : t = 7 := by rw [← hbit, hlast]; rfl
    rw [show div / 2 + 1 + i + 1 = div / 2 + 1 + 8 * div + 0 by omega]
    refine Receiving.stop (by omega) ?_ hcnt' ?_
    · rw [step_rxSt, hadv]
      exact if_pos hlast
    · apply BitVec.eq_of_getLsbD_eq
      intro m hm
      rw [← hshift' m hm, Nat.sub_self, Nat.zero_add]
  · have ht7 : t ≠ 7 := fun h7 => hlast (BitVec.eq_of_toNat_eq (by rw [hbit, h7]; rfl))
    have hdivt : (i + 1) / div = t + 1 := by rw [hi, Nat.mul_div_cancel_left _ (by omega)]
    have hmodt : (i + 1) % div = 0 := by rw [hi, Nat.mul_mod_right]
    have hi' : i + 1 < 8 * div := (Nat.div_lt_iff_lt_mul (by omega)).mp (by rw [hdivt]; omega)
    refine Receiving.bits hi' ?_ ?_ ?_ ?_
    · rw [step_rxSt, hadv]
      exact if_neg hlast
    · rw [step_rxBit, hadv, hdivt, ← hbit]
      change (if u.rxBit = 7 then u.rxBit else u.rxBit + 1).toNat = _
      rw [if_neg hlast, BitVec.toNat_add, Nat.mod_eq_of_lt (by rw [hbit]; change _ + 1 < 8; omega)]
      rfl
    · rw [hcnt', hmodt, Nat.sub_zero]
    · rw [hdivt]
      exact hshift'

/-- One more cycle of the same frame, with the bit of that cycle at the synchronizer. -/
theorem Receiving.next {u : UartRx div} {b : Byte} {j : ℕ} (h : u.Receiving b j)
    (hj : j < div / 2 + 9 * div) (hsync : u.rxSync = lineBit b ((j + 1) / div)) (l : Bool) :
    (u.step l).Receiving b (j + 1) := by
  by_cases hcnt : u.rxCnt = 0
  · have hzero : u.rxCnt.toNat = 0 := by rw [hcnt]; rfl
    cases h with
    | start hle hst hc =>
      obtain rfl : j = div / 2 := by omega
      exact Receiving.genuine hdiv hst hcnt hsync l
    | @bits i hi hst hbit hc hshift =>
      have hmod := Nat.mod_lt i (show 0 < div by omega)
      have hturn := Nat.div_add_mod i div
      have hi' : i + 1 = div * (i / div + 1) := by
        rw [Nat.mul_succ]
        omega
      exact Receiving.sample hdiv (Nat.div_lt_of_lt_mul (by omega)) hi' hst hcnt hbit hshift hsync l
    | stop hi hst hc hshift => omega
  · exact h.wait hdiv hcnt l

/-- The last cycle of a frame signals its byte. -/
theorem Receiving.last {u : UartRx div} {b : Byte} (h : u.Receiving b (div / 2 + 9 * div))
    (hsync : u.rxSync = true) (l : Bool) :
    (u.step l).rxSt = .idle ∧ (u.step l).rxValid = true ∧ (u.step l).rxData = b := by
  generalize hj : div / 2 + 9 * div = j at h
  cases h with
  | start hle _ _ => omega
  | bits hi _ _ _ _ => omega
  | @stop i hi hst hc hshift =>
    have hcnt : u.rxCnt = 0 := BitVec.eq_of_toNat_eq (by rw [hc]; change _ = 0; omega)
    have hadv := advance_stop hst hcnt hsync
    rw [step_rxSt, step_rxValid, step_rxData, hadv]
    exact ⟨rfl, rfl, hshift⟩

omit hdiv in
/-- No other cycle of a frame signals a byte. -/
theorem Receiving.quiet {u : UartRx div} {b : Byte} {j : ℕ} (h : u.Receiving b j)
    (hj : j < div / 2 + 9 * div) (l : Bool) : (u.step l).rxValid = false := by
  by_contra hv
  rw [Bool.not_eq_false, step_rxValid] at hv
  obtain ⟨hstop, hcnt⟩ := advance_valid hv
  cases h with
  | start _ hst _ => rw [hst] at hstop; cases hstop
  | bits _ hst _ _ _ => rw [hst] at hstop; cases hstop
  | stop hi _ hc _ =>
    rw [hcnt] at hc
    change 0 = _ at hc
    omega

/-! ### Runs -/

/-- The byte signalled by `rx_valid`. -/
def signals (u : UartRx div) : Option Byte := if u.rxValid then some u.rxData else none

/-- From the cycle that accepts a byte to the one that signals it. -/
def latency (div : ℕ) : ℕ := div / 2 + 9 * div + 5

section Runs

variable {sent : ℕ → Option Byte} {line : ℕ → Bool} {rx : ℕ → UartRx div}
  (hline : Framed div sent line) (h₀ : rx 0 = .reset)
  (hstep : ∀ n, rx (n + 1) = (rx n).step (line n))

omit hdiv

include hstep

/-- The synchronizer shows the line of two cycles ago. -/
theorem rxSync_late (n : ℕ) : (rx (n + 2)).rxSync = line n := by
  rw [hstep, step_rxSync, hstep]
  exact (BitVec.getLsbD_ofBool (line n) 0).trans (by simp)

include h₀ in
theorem rxSync_early : (rx 0).rxSync = true ∧ (rx 1).rxSync = true := by
  have hidle : (1#1).getLsbD 0 = true := by decide
  rw [hstep, step_rxSync, h₀]
  exact ⟨hidle, hidle⟩

include hline

theorem rxSync_frame {a k : ℕ} {b : Byte} (ha : sent a = some b) (hk : k < 10 * div) :
    (rx (a + 3 + k)).rxSync = lineBit b (k / div) := by
  rw [show a + 3 + k = a + 1 + k + 2 by omega, rxSync_late hstep, hline.bit a b k ha hk]

include h₀ in
/-- The synchronizer is low within a frame only. -/
theorem rxSync_low {n : ℕ} (h : (rx n).rxSync = false) :
    ∃ a b k, sent a = some b ∧ k < 10 * div ∧ n = a + 3 + k ∧ lineBit b (k / div) = false := by
  obtain ⟨hzero, hone⟩ := rxSync_early h₀ hstep
  match n with
  | 0 => rw [hzero] at h; cases h
  | 1 => rw [hone] at h; cases h
  | m + 2 =>
    rw [rxSync_late hstep] at h
    obtain ⟨a, b, k, ha, hk, rfl⟩ := hline.idle m h
    exact ⟨a, b, k, ha, hk, by omega, by rw [← hline.bit a b k ha hk, h]⟩

/-- In cycle `n` the receiver is idle, with all frames that began read to their stop bits, or it is
reading the frame of a byte. -/
def Phase (sent : ℕ → Option Byte) (rx : ℕ → UartRx div) (n : ℕ) : Prop :=
  ((rx n).rxSt = .idle ∧ ∀ a b, sent a = some b → a + 4 ≤ n → a + latency div ≤ n) ∨
    ∃ a b j, sent a = some b ∧ j ≤ div / 2 + 9 * div ∧ n = a + 4 + j ∧ (rx n).Receiving b j

include hdiv

/-- The bit sampled last is the stop bit. -/
theorem rxSync_stop {a : ℕ} {b : Byte} (ha : sent a = some b) :
    (rx (a + 4 + (div / 2 + 9 * div))).rxSync = true := by
  have hsync := rxSync_frame (k := div / 2 + 1 + div * 9) hline hstep ha (by omega)
  rw [middle_div hdiv, lineBit_stop] at hsync
  rwa [show a + 4 + (div / 2 + 9 * div) = a + 3 + (div / 2 + 1 + div * 9) by omega]

include h₀ in
/-- From the idle state the start bit of the next byte leads into its frame. -/
theorem Phase.idle_next {n : ℕ} (hidle : (rx n).rxSt = .idle)
    (hdone : ∀ a b, sent a = some b → a + 4 ≤ n → a + latency div ≤ n) : Phase sent rx (n + 1) := by
  have hadv := advance_idle hidle
  cases hsync : (rx n).rxSync with
  | false =>
    rw [hsync] at hadv
    obtain ⟨a, b, k, ha, hk, rfl, hbit⟩ := rxSync_low hline h₀ hstep hsync
    have hk0 : k = 0 := by
      by_contra hne
      have hlate := hdone a b ha (by omega)
      have hstop : k / div = 9 := by
        unfold latency at hlate
        have h1 : 9 ≤ k / div := (Nat.le_div_iff_mul_le (by omega)).mpr (by omega)
        have h2 : k / div < 10 := Nat.div_lt_of_lt_mul (by omega)
        omega
      rw [hstop, lineBit_stop] at hbit
      cases hbit
    subst hk0
    refine Or.inr ⟨a, b, 0, ha, Nat.zero_le _, rfl, ?_⟩
    rw [hstep]
    refine Receiving.start (Nat.zero_le _) ?_ ?_
    · rw [step_rxSt, hadv]
      rfl
    · rw [step_rxCnt, hadv]
      exact Uart.load_toNat (by omega) (by omega)
  | true =>
    rw [hsync] at hadv
    refine Or.inl ⟨?_, fun a b ha hle => ?_⟩
    · rw [hstep, step_rxSt, hadv]
      exact hidle
    · by_cases hnew : a + 4 ≤ n
      · exact (hdone a b ha hnew).trans (Nat.le_succ n)
      · have hlow := rxSync_frame (k := 0) hline hstep ha (by omega)
        rw [show a + 3 + 0 = n by omega, hsync, Nat.zero_div, lineBit_start] at hlow
        cases hlow

/-- A frame goes on to its stop bit and ends before the next one begins. -/
theorem Phase.receiving_next {a j : ℕ} {b : Byte} (ha : sent a = some b) (hj : j ≤ div / 2 + 9 * div)
    (hrec : (rx (a + 4 + j)).Receiving b j) : Phase sent rx (a + 4 + j + 1) := by
  by_cases hlast : j = div / 2 + 9 * div
  · subst hlast
    rw [Phase, hstep]
    refine Or.inl ⟨(hrec.last hdiv (rxSync_stop hdiv hline hstep ha) _).1, fun a' b' ha' hle => ?_⟩
    unfold latency
    by_contra hlt
    have := hline.apart a a' b b' ha ha' (by omega)
    omega
  · have hsync := rxSync_frame (k := j + 1) hline hstep ha (by omega)
    rw [show a + 3 + (j + 1) = a + 4 + j by omega] at hsync
    refine Or.inr ⟨a, b, j + 1, ha, by omega, rfl, ?_⟩
    rw [hstep]
    exact hrec.next hdiv (by omega) hsync _

include h₀

theorem phase_run (n : ℕ) : Phase sent rx n := by
  induction n with
  | zero =>
    rw [Phase, h₀]
    exact Or.inl ⟨rfl, fun a b _ h => by omega⟩
  | succ n ih =>
    rcases ih with ⟨hidle, hdone⟩ | ⟨a, b, j, ha, hj, rfl, hrec⟩
    · exact Phase.idle_next hdiv hline h₀ hstep hidle hdone
    · exact Phase.receiving_next hdiv hline hstep ha hj hrec

/-- Every byte is signalled after the latency. -/
theorem signals_of_sent {a : ℕ} {b : Byte} (ha : sent a = some b) :
    (rx (a + latency div)).signals = some b := by
  rcases phase_run hdiv hline h₀ hstep (a + 4 + (div / 2 + 9 * div)) with
    ⟨-, hdone⟩ | ⟨a', b', j, ha', hj, heq, hrec⟩
  · have := hdone a b ha (by omega)
    unfold latency at this
    omega
  · -- frames are too far apart for another one
    have haa : a' = a := by
      by_contra hne
      have := hline.apart a a' b b' ha ha' (by omega)
      omega
    subst haa
    obtain rfl : b = b' := Option.some.inj (ha.symm.trans ha')
    obtain rfl : div / 2 + 9 * div = j := by omega
    obtain ⟨-, hvalid, hdata⟩ :=
      hrec.last hdiv (rxSync_stop hdiv hline hstep ha) (line (a' + 4 + (div / 2 + 9 * div)))
    rw [← hstep, show a' + 4 + (div / 2 + 9 * div) + 1 = a' + latency div by unfold latency; omega]
      at hvalid hdata
    rw [signals, hvalid, hdata]
    rfl

/-- Nothing else is signalled. -/
theorem sent_of_signals {n : ℕ} {b : Byte} (h : (rx n).signals = some b) :
    ∃ a, n = a + latency div ∧ sent a = some b := by
  have hvalid : (rx n).rxValid = true := by
    rw [signals] at h
    split at h
    · assumption
    · cases h
  have hsent : ∃ a b', n = a + latency div ∧ sent a = some b' := by
    cases n with
    | zero => rw [h₀] at hvalid; cases hvalid
    | succ n =>
      rw [hstep] at hvalid
      rcases phase_run hdiv hline h₀ hstep n with ⟨hidle, -⟩ | ⟨a, b', j, ha, hj, rfl, hrec⟩
      · rw [step_rxValid] at hvalid
        rw [(advance_valid hvalid).1] at hidle
        cases hidle
      · refine ⟨a, b', ?_, ha⟩
        by_contra hne
        unfold latency at hne
        rw [hrec.quiet (by omega)] at hvalid
        cases hvalid
  obtain ⟨a, b', rfl, ha⟩ := hsent
  rw [signals_of_sent hdiv hline h₀ hstep ha] at h
  exact ⟨a, rfl, by rw [ha, h]⟩

end Runs

end UartRx

end FpgaScope
