import FpgaScope.Xport.Receive

/-! The receiver on any line at all. Once it sees the line low it takes ten samples, one bit time
apart, and what it signals depends on these alone. `toGo` is how long it needs at least before it
signals anything, `busyFor` how long it stays away from the idle state on a line that is high. -/

namespace FpgaScope

open Clocked

namespace UartRx

variable {div : ℕ}

/-- When bit `i` is sampled, counted from the cycle that sees the start bit. -/
def middle (div i : ℕ) : ℕ := div / 2 + 1 + div * i

/-- From the cycle that sees the start bit to the one that signals the byte. -/
def span (div : ℕ) : ℕ := div / 2 + 9 * div + 2

theorem middle_last (div : ℕ) : middle div 9 + 1 = span div := by
  unfold middle span
  omega

/-- The byte between the start and the stop bit. -/
def sampled (x : ℕ → Bool) : Byte := BitVec.ofBoolListLE ((List.range 8).map fun m => x (m + 1))

theorem sampled_getLsbD (x : ℕ → Bool) {m : ℕ} (hm : m < 8) : (sampled x).getLsbD m = x (m + 1) := by
  have hget : (sampled x).getLsbD m = ((List.range 8).map fun m => x (m + 1)).getD m false :=
    BitVec.getLsbD_ofBoolListLE
  rw [List.getD_eq_getElem?_getD, List.getElem?_map, List.getElem?_range hm] at hget
  exact hget

theorem sampled_lineBit {x : ℕ → Bool} {b : Byte} (h : ∀ i < 10, x i = lineBit b i) : sampled x = b := by
  apply BitVec.eq_of_getLsbD_eq
  intro m hm
  rw [sampled_getLsbD x hm, h (m + 1) (by omega), lineBit_data b hm]

/-! ### One step -/

theorem advance_stop_low {u : UartRx div} (hst : u.rxSt = .stop) (hcnt : u.rxCnt = 0)
    (hsync : u.rxSync = false) : u.advance = { u with rxValid := false, rxSt := .idle } := by
  unfold advance
  simp only [hst, if_neg (not_not.mpr hcnt), hsync, Bool.false_eq_true, if_false]

theorem advance_start_high {u : UartRx div} (hst : u.rxSt = .start) (hcnt : u.rxCnt = 0)
    (hsync : u.rxSync = true) : u.advance = { u with rxValid := false, rxSt := .idle } := by
  unfold advance
  simp only [hst, if_neg (not_not.mpr hcnt), hsync, Bool.not_true, Bool.false_eq_true, if_false]

/-- The last cycle of a frame signals the byte if the stop bit is high. -/
theorem Receiving.ends {u : UartRx div} {b : Byte} (hdiv : 4 ≤ div)
    (h : u.Receiving b (div / 2 + 9 * div)) (l : Bool) :
    (u.step l).rxSt = .idle ∧ (u.step l).signals = if u.rxSync then some b else none := by
  cases hsync : u.rxSync with
  | true =>
    obtain ⟨hidle, hvalid, hdata⟩ := h.last hdiv hsync l
    exact ⟨hidle, by rw [signals, hvalid, hdata]⟩
  | false =>
    generalize hj : div / 2 + 9 * div = j at h
    cases h with
    | start hle _ _ => omega
    | bits hi _ _ _ _ => omega
    | stop hi hst hc _ =>
      have hcnt : u.rxCnt = 0 := BitVec.eq_of_toNat_eq (by rw [hc]; change _ = 0; omega)
      have hadv := advance_stop_low hst hcnt hsync
      rw [signals, step_rxSt, step_rxValid, hadv]
      exact ⟨rfl, rfl⟩

/-- The counter is at 0 when a bit is sampled. -/
theorem Receiving.instant {u : UartRx div} {b : Byte} {j : ℕ} (hdiv : 0 < div) (h : u.Receiving b j)
    (hcnt : u.rxCnt = 0) (hj : j < div / 2 + 9 * div) : ∃ i ≤ 8, j + 1 = middle div i := by
  have hzero : u.rxCnt.toNat = 0 := by rw [hcnt]; rfl
  unfold middle
  cases h with
  | start hle _ hc => exact ⟨0, by omega, by omega⟩
  | @bits i hi _ _ hc _ =>
    have hmod := Nat.mod_lt i hdiv
    have hturn := Nat.div_add_mod i div
    have hbit : i / div < 8 := Nat.div_lt_of_lt_mul (by omega)
    refine ⟨i / div + 1, by omega, ?_⟩
    rw [Nat.mul_succ]
    omega
  | stop hi _ hc _ => omega

/-! ### What a step can do -/

/-- The ways from one cycle to the next, as far as the state and the counters go. -/
inductive Moves (u u' : UartRx div) : Prop
  | rest (h : u.rxSt = .idle) (hsync : u.rxSync = true) (h' : u'.rxSt = .idle)
      (hcnt : u'.rxCnt = u.rxCnt)
  | begin (h : u.rxSt = .idle) (hsync : u.rxSync = false) (h' : u'.rxSt = .start)
      (hcnt : u'.rxCnt.toNat = div / 2)
  | count (h : u.rxSt ≠ .idle) (h' : u'.rxSt = u.rxSt) (hbit : u'.rxBit = u.rxBit)
      (hcnt : u'.rxCnt.toNat + 1 = u.rxCnt.toNat)
  | glitch (h : u.rxSt = .start) (h₀ : u.rxCnt = 0) (hsync : u.rxSync = true) (h' : u'.rxSt = .idle)
      (hcnt : u'.rxCnt = u.rxCnt)
  | genuine (h : u.rxSt = .start) (h₀ : u.rxCnt = 0) (hsync : u.rxSync = false) (h' : u'.rxSt = .bits)
      (hcnt : u'.rxCnt.toNat = div - 1) (hbit : u'.rxBit.toNat = 0)
  | shift (h : u.rxSt = .bits) (h₀ : u.rxCnt = 0) (h' : u'.rxSt = .bits)
      (hcnt : u'.rxCnt.toNat = div - 1) (hbit : u'.rxBit.toNat = u.rxBit.toNat + 1)
  | filled (h : u.rxSt = .bits) (h₀ : u.rxCnt = 0) (hlast : u.rxBit = 7) (h' : u'.rxSt = .stop)
      (hcnt : u'.rxCnt.toNat = div - 1)
  | stop (h : u.rxSt = .stop) (h₀ : u.rxCnt = 0) (h' : u'.rxSt = .idle) (hcnt : u'.rxCnt = u.rxCnt)

theorem moves (hdiv : 2 ≤ div) (u : UartRx div) (l : Bool) : u.Moves (u.step l) := by
  by_cases hidle : u.rxSt = .idle
  · have hadv := advance_idle hidle
    cases hsync : u.rxSync with
    | true =>
      rw [hsync] at hadv
      exact .rest hidle hsync (by rw [step_rxSt, hadv]; exact hidle) (by rw [step_rxCnt, hadv]; rfl)
    | false =>
      rw [hsync] at hadv
      refine .begin hidle hsync (by rw [step_rxSt, hadv]; rfl) ?_
      rw [step_rxCnt, hadv]
      exact Uart.load_toNat hdiv (by omega)
  · by_cases hcnt : u.rxCnt = 0
    · cases hst : u.rxSt with
      | idle => exact absurd hst hidle
      | start =>
        cases hsync : u.rxSync with
        | true =>
          have hadv := advance_start_high hst hcnt hsync
          exact .glitch hst hcnt hsync (by rw [step_rxSt, hadv]) (by rw [step_rxCnt, hadv])
        | false =>
          have hadv := advance_start hst hcnt hsync
          refine .genuine hst hcnt hsync (by rw [step_rxSt, hadv]) ?_ (by rw [step_rxBit, hadv]; rfl)
          rw [step_rxCnt, hadv]
          exact Uart.load_toNat hdiv (by omega)
      | bits =>
        have hadv := advance_bits hst hcnt
        have hload : (u.step l).rxCnt.toNat = div - 1 := by
          rw [step_rxCnt, hadv]
          exact Uart.load_toNat hdiv (by omega)
        by_cases hlast : u.rxBit = 7
        · exact .filled hst hcnt hlast (by rw [step_rxSt, hadv]; exact if_pos hlast) hload
        · have hlt : u.rxBit.toNat < 7 := by
            have hbit := u.rxBit.isLt
            have hne : u.rxBit.toNat ≠ 7 := fun h => hlast (BitVec.eq_of_toNat_eq h)
            omega
          refine .shift hst hcnt (by rw [step_rxSt, hadv]; exact if_neg hlast) hload ?_
          rw [step_rxBit, hadv]
          change (if u.rxBit = 7 then u.rxBit else u.rxBit + 1).toNat = _
          rw [if_neg hlast, BitVec.toNat_add]
          exact Nat.mod_eq_of_lt (by change u.rxBit.toNat + 1 < 8; omega)
      | stop =>
        cases hsync : u.rxSync with
        | true =>
          have hadv := advance_stop hst hcnt hsync
          exact .stop hst hcnt (by rw [step_rxSt, hadv]) (by rw [step_rxCnt, hadv])
        | false =>
          have hadv := advance_stop_low hst hcnt hsync
          exact .stop hst hcnt (by rw [step_rxSt, hadv]) (by rw [step_rxCnt, hadv])
    · have hadv := advance_count hidle hcnt
      have hpos : u.rxCnt.toNat ≠ 0 := fun h0 => hcnt (BitVec.eq_of_toNat_eq h0)
      refine .count hidle (by rw [step_rxSt, hadv]) (by rw [step_rxBit, hadv]) ?_
      rw [step_rxCnt, hadv]
      change (u.rxCnt - 1).toNat + 1 = _
      rw [Ring.toNat_pred hcnt]
      omega

/-! ### Bounds on the time to come -/

/-- On a high line, at most this many cycles until the receiver is idle. -/
def busyFor (u : UartRx div) : ℕ :=
  match u.rxSt with
  | .idle => 0
  | .start => u.rxCnt.toNat + 1
  | .bits => u.rxCnt.toNat + 1 + (8 - u.rxBit.toNat) * div
  | .stop => u.rxCnt.toNat + 1

/-- At least this many cycles until something is signalled. -/
def toGo (u : UartRx div) : ℕ :=
  match u.rxSt with
  | .idle => span div
  | .start => u.rxCnt.toNat + 1 + 9 * div
  | .bits => u.rxCnt.toNat + 1 + (8 - u.rxBit.toNat) * div
  | .stop => u.rxCnt.toNat + 1

theorem toGo_of_signals {u : UartRx div} {l : Bool} (h : (u.step l).signals ≠ none) : u.toGo = 1 := by
  have hvalid : (u.step l).rxValid = true := by
    by_contra hv
    rw [signals, if_neg hv] at h
    exact h rfl
  obtain ⟨hst, hcnt⟩ := advance_valid hvalid
  rw [toGo, hst, hcnt]
  rfl

variable (hdiv : 4 ≤ div)
include hdiv

theorem toGo_step (u : UartRx div) (l : Bool) : u.toGo ≤ (u.step l).toGo + 1 := by
  unfold toGo
  rcases moves (by omega) u l with ⟨h, -, h', -⟩ | ⟨h, -, h', hcnt⟩ | ⟨h, h', hbit, hcnt⟩ |
    ⟨h, h₀, -, h', -⟩ | ⟨h, h₀, -, h', hcnt, hbit⟩ | ⟨h, h₀, h', hcnt, hbit⟩ |
    ⟨h, h₀, hlast, h', hcnt⟩ | ⟨h, h₀, h', -⟩
  · rw [h, h']
    dsimp only
    omega
  · rw [h, h', hcnt, span]
    dsimp only
    omega
  · rw [h', hbit]
    cases hst : u.rxSt with
    | idle => exact absurd hst h
    | start | bits | stop =>
      dsimp only
      omega
  · rw [h, h', h₀, span]
    change 0 + 1 + 9 * div ≤ _
    dsimp only
    omega
  · rw [h, h', h₀, hcnt, hbit]
    change 0 + 1 + 9 * div ≤ _
    dsimp only
    omega
  · have hle := (u.step l).rxBit.isLt
    rw [h, h', h₀, hcnt, hbit]
    change 0 + 1 + (8 - u.rxBit.toNat) * div ≤ _
    rw [show 8 - u.rxBit.toNat = (8 - (u.rxBit.toNat + 1)) + 1 by omega, Nat.succ_mul]
    dsimp only
    omega
  · rw [h, h', h₀, hlast, hcnt]
    change 0 + 1 + (8 - 7) * div ≤ _
    dsimp only
    omega
  · rw [h, h', h₀]
    exact Nat.le_add_left 1 _

/-- On a high line the receiver comes closer to the idle state and stays there. -/
theorem busyFor_step {u : UartRx div} (hsync : u.rxSync = true) (l : Bool) :
    (u.step l).busyFor ≤ u.busyFor - 1 := by
  unfold busyFor
  rcases moves (by omega) u l with ⟨-, -, h', -⟩ | ⟨-, hlow, -, -⟩ | ⟨h, h', hbit, hcnt⟩ |
    ⟨-, -, -, h', -⟩ | ⟨-, -, hlow, -, -, -⟩ | ⟨h, h₀, h', hcnt, hbit⟩ |
    ⟨h, h₀, hlast, h', hcnt⟩ | ⟨-, -, h', -⟩
  · rw [h']
    exact Nat.zero_le _
  · rw [hsync] at hlow
    cases hlow
  · rw [h', hbit]
    cases hst : u.rxSt with
    | idle => exact absurd hst h
    | start | bits | stop =>
      dsimp only
      omega
  · rw [h']
    exact Nat.zero_le _
  · rw [hsync] at hlow
    cases hlow
  · have hle := (u.step l).rxBit.isLt
    rw [h, h', h₀, hcnt, hbit]
    change _ ≤ 0 + 1 + (8 - u.rxBit.toNat) * div - 1
    rw [show 8 - u.rxBit.toNat = (8 - (u.rxBit.toNat + 1)) + 1 by omega, Nat.succ_mul]
    dsimp only
    omega
  · rw [h, h', h₀, hlast, hcnt]
    change _ ≤ 0 + 1 + (8 - 7) * div - 1
    dsimp only
    omega
  · rw [h']
    exact Nat.zero_le _

/-- The counter never holds more than a bit time. -/
theorem cnt_step {u : UartRx div} (h : u.rxCnt.toNat < div) (l : Bool) : (u.step l).rxCnt.toNat < div := by
  rcases moves (by omega) u l with ⟨-, -, -, hcnt⟩ | ⟨-, -, -, hcnt⟩ | ⟨-, -, -, hcnt⟩ |
    ⟨-, -, -, -, hcnt⟩ | ⟨-, -, -, -, hcnt, -⟩ | ⟨-, -, -, hcnt, -⟩ | ⟨-, -, -, -, hcnt⟩ |
    ⟨-, -, -, hcnt⟩
  all_goals first | omega | rw [hcnt]; exact h

omit hdiv in
theorem busyFor_le {u : UartRx div} (h : u.rxCnt.toNat < div) : u.busyFor ≤ 9 * div := by
  rw [busyFor]
  cases u.rxSt with
  | idle => exact Nat.zero_le _
  | start | stop =>
    dsimp only
    omega
  | bits =>
    have hle : (8 - u.rxBit.toNat) * div ≤ 8 * div := Nat.mul_le_mul_right div (Nat.sub_le _ _)
    dsimp only
    omega

/-! ### Runs -/

section Runs

variable {line : ℕ → Bool} {rx : ℕ → UartRx div} (hstep : ∀ n, rx (n + 1) = (rx n).step (line n))
include hstep

/-- An idle receiver needs a whole frame before it signals. -/
theorem quiet_from_idle {t k : ℕ} (hidle : (rx t).rxSt = .idle) (hk : k + 1 < span div) :
    (rx (t + k + 1)).signals = none := by
  have htogo : ∀ m, span div ≤ (rx (t + m)).toGo + m := by
    intro m
    induction m with
    | zero =>
      rw [show t + 0 = t from rfl, toGo, hidle]
      exact le_rfl
    | succ m ih =>
      have := toGo_step hdiv (rx (t + m)) (line (t + m))
      rw [← hstep] at this
      rw [show t + (m + 1) = t + m + 1 from rfl]
      omega
  by_contra hne
  rw [hstep] at hne
  have := toGo_of_signals hne
  have := htogo k
  omega

/-- From the cycle that sees the start bit on, the receiver collects its samples. -/
theorem receiving_samples {d : ℕ} (hidle : (rx d).rxSt = .idle) (hlow : (rx d).rxSync = false)
    (hstart : (rx (d + middle div 0)).rxSync = false) {j : ℕ} (hj : j ≤ div / 2 + 9 * div) :
    (rx (d + 1 + j)).Receiving (sampled fun i => (rx (d + middle div i)).rxSync) j := by
  induction j with
  | zero =>
    have hadv := advance_idle hidle
    rw [hlow] at hadv
    rw [show d + 1 + 0 = d + 1 from rfl, hstep]
    refine Receiving.start (Nat.zero_le _) (by rw [step_rxSt, hadv]; rfl) ?_
    rw [step_rxCnt, hadv]
    exact Uart.load_toNat (by omega) (by omega)
  | succ j ih =>
    have h := ih (by omega)
    rw [← Nat.add_assoc, hstep]
    by_cases hcnt : (rx (d + 1 + j)).rxCnt = 0
    · obtain ⟨i, hi, hmid⟩ := h.instant (by omega) hcnt (by omega)
      refine h.next hdiv (by omega) ?_ _
      have hbit : (j + 1) / div = i := by rw [hmid]; exact middle_div hdiv i
      rw [hbit, show d + 1 + j = d + middle div i by omega]
      cases i with
      | zero => rw [hstart, lineBit_start]
      | succ m => rw [lineBit_data _ (by omega), sampled_getLsbD _ (by omega)]
    · exact h.wait hdiv hcnt _

/-- What becomes of a start bit: the byte of the samples, if the last of them is high. -/
theorem frame_read {d : ℕ} (hidle : (rx d).rxSt = .idle) (hlow : (rx d).rxSync = false)
    (hstart : (rx (d + middle div 0)).rxSync = false) :
    (rx (d + span div)).rxSt = .idle ∧ (rx (d + span div)).signals =
      if (rx (d + middle div 9)).rxSync then some (sampled fun i => (rx (d + middle div i)).rxSync)
      else none := by
  have hrec := receiving_samples hdiv hstep hidle hlow hstart (le_refl (div / 2 + 9 * div))
  rw [show d + 1 + (div / 2 + 9 * div) = d + middle div 9 by unfold middle; omega] at hrec
  rw [← middle_last, ← Nat.add_assoc, hstep]
  exact hrec.ends hdiv _

/-- A line that is high again in the middle of the start bit was a glitch. -/
theorem glitch_skipped {d : ℕ} (hidle : (rx d).rxSt = .idle) (hlow : (rx d).rxSync = false)
    (hstart : (rx (d + middle div 0)).rxSync = true) : (rx (d + middle div 0 + 1)).rxSt = .idle := by
  have hcount : ∀ j ≤ div / 2, (rx (d + 1 + j)).rxSt = .start ∧
      (rx (d + 1 + j)).rxCnt.toNat = div / 2 - j := by
    intro j
    induction j with
    | zero =>
      intro _
      have hadv := advance_idle hidle
      rw [hlow] at hadv
      rw [show d + 1 + 0 = d + 1 from rfl, hstep, step_rxSt, step_rxCnt, hadv]
      exact ⟨rfl, Uart.load_toNat (by omega) (by omega)⟩
    | succ j ih =>
      intro hj
      obtain ⟨hst, hcnt⟩ := ih (by omega)
      have hne : (rx (d + 1 + j)).rxCnt ≠ 0 := fun h0 => by
        rw [h0] at hcnt
        change 0 = _ at hcnt
        omega
      have hidle' : (rx (d + 1 + j)).rxSt ≠ .idle := by rw [hst]; decide
      have hadv := advance_count hidle' hne
      have hpred := Ring.toNat_pred hne
      rw [← Nat.add_assoc, hstep, step_rxSt, step_rxCnt, hadv]
      exact ⟨hst, by rw [hpred, hcnt, Nat.sub_sub]⟩
  obtain ⟨hst, hcnt⟩ := hcount (div / 2) le_rfl
  rw [show d + 1 + div / 2 = d + middle div 0 by unfold middle; omega] at hst hcnt
  have hzero : (rx (d + middle div 0)).rxCnt = 0 :=
    BitVec.eq_of_toNat_eq (by rw [hcnt, Nat.sub_self]; rfl)
  rw [hstep, step_rxSt, advance_start_high hst hzero hstart]

/-- Whatever the receiver was doing, a high line brings it back to the idle state. -/
theorem idle_after_high {t : ℕ} (hcnt : (rx t).rxCnt.toNat < div)
    (hhigh : ∀ k < 9 * div, (rx (t + k)).rxSync = true) : (rx (t + 9 * div)).rxSt = .idle := by
  have hleft : ∀ k ≤ 9 * div, (rx (t + k)).busyFor ≤ 9 * div - k := by
    intro k
    induction k with
    | zero => exact fun _ => busyFor_le hcnt
    | succ k ih =>
      intro hk
      have h := busyFor_step hdiv (hhigh k (by omega)) (line (t + k))
      have := ih (by omega)
      rw [← Nat.add_assoc, hstep]
      omega
  have hzero := hleft (9 * div) le_rfl
  rw [Nat.sub_self, Nat.le_zero, busyFor] at hzero
  cases hst : (rx (t + 9 * div)).rxSt with
  | idle => rfl
  | start | bits | stop =>
    rw [hst] at hzero
    dsimp only at hzero
    omega

end Runs

end UartRx

end FpgaScope
