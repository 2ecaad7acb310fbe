import FpgaScope.Xport.Sampling

/-! Lines that keep a time of their own. The edges of a frame may lie anywhere as long as each bit
covers the cycle in which it is sampled; for a constant bit time that comes down to the stop bit.
A line that has been high for nine bit times and three cycles puts any receiver at rest, so that
nothing before it matters. -/

namespace FpgaScope

open Clocked

/-- The line carries the bytes `sent`, each from the cycle of its start bit on. Bit `i` of the frame
that begins in cycle `a` lasts from `edge a i` to `edge a (i + 1)` and is sampled in between. -/
structure Timed (div : ℕ) (edge : ℕ → ℕ → ℕ) (sent : ℕ → Option Byte) (line : ℕ → Bool) : Prop where
  start : ∀ a b, sent a = some b → edge a 0 = a
  bit : ∀ a b i n, sent a = some b → i < 10 → edge a i ≤ n → n < edge a (i + 1) → line n = lineBit b i
  idle : ∀ n, line n = false → ∃ a b, sent a = some b ∧ a ≤ n ∧ n < edge a 10
  apart : ∀ a a' b b', sent a = some b → sent a' = some b' → a < a' → edge a 10 ≤ a'
  covers : ∀ a b i, sent a = some b → i < 10 →
    edge a i ≤ a + UartRx.middle div i ∧ a + UartRx.middle div i < edge a (i + 1)

/-- Frames of a constant bit time. -/
structure Paced (per : ℕ) (sent : ℕ → Option Byte) (line : ℕ → Bool) : Prop where
  bit : ∀ a b k, sent a = some b → k < 10 * per → line (a + k) = lineBit b (k / per)
  idle : ∀ n, line n = false → ∃ a b k, sent a = some b ∧ k < 10 * per ∧ n = a + k
  apart : ∀ a a' b b', sent a = some b → sent a' = some b' → a < a' → a + 10 * per ≤ a'

namespace UartRx

variable {div : ℕ}

/-- From the cycle of the start bit to the one that signals the byte. -/
def delay (div : ℕ) : ℕ := span div + 2

/-- How long the line has to be high for the receiver to come to rest. -/
def settle (div : ℕ) : ℕ := 9 * div + 3

/-- An idle receiver with a high line behind it. -/
structure Rests (u : UartRx div) : Prop where
  st : u.rxSt = .idle
  valid : u.rxValid = false
  sync : u.rxSync = true
  next : (u.uRxSync.syncQ 0).getLsbD 0 = true

theorem Rests.reset : Rests (.reset : UartRx div) := by
  have hidle : (1#1).getLsbD 0 = true := by decide
  exact ⟨rfl, rfl, hidle, hidle⟩

/-- A run from reset on any line. -/
def run (div : ℕ) (line : ℕ → Bool) (n : ℕ) : UartRx div := trace step .reset line n

theorem run_step (line : ℕ → Bool) (n : ℕ) : run div line (n + 1) = (run div line n).step (line n) := rfl

theorem signals_of_idle {u : UartRx div} (h : u.rxSt = .idle) (l : Bool) : (u.step l).signals = none := by
  rw [signals, if_neg]
  intro hv
  rw [(advance_valid hv).1] at h
  cases h

/-! ### Timed lines -/

section Runs

variable {edge : ℕ → ℕ → ℕ} {sent : ℕ → Option Byte} {line : ℕ → Bool} {rx : ℕ → UartRx div}
  (hline : Timed div edge sent line) (h₀ : (rx 0).Rests) (hstep : ∀ n, rx (n + 1) = (rx n).step (line n))

include hline

theorem line_middle {a i : ℕ} {b : Byte} (ha : sent a = some b) (hi : i < 10) :
    line (a + middle div i) = lineBit b i := by
  obtain ⟨h₁, h₂⟩ := hline.covers a b i ha hi
  exact hline.bit a b i _ ha hi h₁ h₂

theorem line_start {a : ℕ} {b : Byte} (ha : sent a = some b) : line a = false := by
  obtain ⟨-, h₂⟩ := hline.covers a b 0 ha (by decide)
  rw [hline.bit a b 0 a ha (by decide) (hline.start a b ha).le (by omega), lineBit_start]

/-- A frame lasts at least until its stop bit has been sampled. -/
theorem lasts {a : ℕ} {b : Byte} (ha : sent a = some b) : a + span div ≤ edge a 10 := by
  have h : a + middle div 9 < edge a 10 := (hline.covers a b 9 ha (by decide)).2
  have := middle_last div
  omega

include hstep

theorem sampled_frame {a : ℕ} {b : Byte} (ha : sent a = some b) {i : ℕ} (hi : i < 10) :
    (rx (a + 2 + middle div i)).rxSync = lineBit b i := by
  rw [show a + 2 + middle div i = a + middle div i + 2 by omega, rxSync_late hstep, line_middle hline ha hi]

include h₀

/-- The synchronizer is low within a frame only, and not after its stop bit has been sampled. -/
theorem low_in_frame {n : ℕ} (h : (rx n).rxSync = false) :
    ∃ a b, sent a = some b ∧ a + 2 ≤ n ∧ n < a + 2 + span div := by
  match n with
  | 0 =>
    rw [h₀.sync] at h
    cases h
  | 1 =>
    rw [hstep, step_rxSync, h₀.next] at h
    cases h
  | m + 2 =>
    rw [rxSync_late hstep] at h
    obtain ⟨a, b, ha, hle, hlt⟩ := hline.idle m h
    refine ⟨a, b, ha, by omega, ?_⟩
    by_contra hlate
    have hedge := (hline.covers a b 9 ha (by decide)).1
    have := middle_last div
    rw [hline.bit a b 9 m ha (by decide) (by omega) hlt, lineBit_stop] at h
    cases h

omit hline h₀ hstep in
/-- Idle, with every frame that began before read to its end. -/
def Ready (sent : ℕ → Option Byte) (rx : ℕ → UartRx div) (n : ℕ) : Prop :=
  (rx n).rxSt = .idle ∧ ∀ a b, sent a = some b → a + 2 < n → a + 2 + span div ≤ n

variable (hdiv : 4 ≤ div)
include hdiv

omit h₀ in
/-- A frame that the receiver is ready for is read. -/
theorem frame_signalled {a : ℕ} {b : Byte} (ha : sent a = some b) (hready : Ready sent rx (a + 2)) :
    (rx (a + 2 + span div)).rxSt = .idle ∧ (rx (a + 2 + span div)).signals = some b := by
  have hbits := fun i (hi : i < 10) => sampled_frame hline hstep ha hi
  have hlow : (rx (a + 2)).rxSync = false := by rw [rxSync_late hstep, line_start hline ha]
  have hstart : (rx (a + 2 + middle div 0)).rxSync = false := by
    rw [hbits 0 (by decide), lineBit_start]
  obtain ⟨hidle, hsig⟩ := frame_read hdiv hstep hready.1 hlow hstart
  rw [hbits 9 (by decide), lineBit_stop, if_pos rfl, sampled_lineBit hbits] at hsig
  exact ⟨hidle, hsig⟩

/-- In every cycle the receiver is ready or within a frame that it was ready for. -/
theorem ready_or_inside (n : ℕ) : Ready sent rx n ∨
    ∃ a b, sent a = some b ∧ Ready sent rx (a + 2) ∧ a + 2 ≤ n ∧ n < a + 2 + span div := by
  induction n with
  | zero => exact Or.inl ⟨h₀.st, fun a b _ h => by omega⟩
  | succ n ih =>
    rcases ih with hready | ⟨a, b, ha, hready, hle, hlt⟩
    · cases hsync : (rx n).rxSync with
      | false =>
        obtain ⟨a, b, ha, hle, hlt⟩ := low_in_frame hline h₀ hstep hsync
        have hspan : 2 ≤ span div := Nat.le_add_left 2 _
        have hn : a + 2 = n := by
          by_contra hne
          have := hready.2 a b ha (by omega)
          omega
        exact Or.inr ⟨a, b, ha, by rw [hn]; exact hready, by omega, by omega⟩
      | true =>
        have hadv := advance_idle hready.1
        rw [hsync] at hadv
        refine Or.inl ⟨?_, fun a b ha hlt => ?_⟩
        · rw [hstep, step_rxSt, hadv]
          exact hready.1
        · by_cases hold : a + 2 < n
          · have := hready.2 a b ha hold
            omega
          · have hlow : (rx (a + 2)).rxSync = false := by rw [rxSync_late hstep, line_start hline ha]
            rw [show a + 2 = n by omega, hsync] at hlow
            cases hlow
    · by_cases hlast : n + 1 < a + 2 + span div
      · exact Or.inr ⟨a, b, ha, hready, by omega, hlast⟩
      · have hn : n + 1 = a + 2 + span div := by omega
        refine Or.inl ⟨by rw [hn]; exact (frame_signalled hline hstep hdiv ha hready).1, ?_⟩
        -- a frame that began before has been read, one that begins later begins after this one
        intro a' b' ha' hlt'
        rcases Nat.lt_trichotomy a' a with hlt | rfl | hgt
        · have := hline.apart a' a b' b ha' ha hlt
          have := lasts hline ha'
          omega
        · omega
        · have := hline.apart a a' b b' ha ha' hgt
          have := lasts hline ha
          omega

/-- Every byte is signalled after the delay. -/
theorem signals_of_timed {a : ℕ} {b : Byte} (ha : sent a = some b) :
    (rx (a + delay div)).signals = some b := by
  have hready : Ready sent rx (a + 2) := by
    rcases ready_or_inside hline h₀ hstep hdiv (a + 2) with h | ⟨a', b', ha', h, hle, hlt⟩
    · exact h
    · rcases Nat.lt_trichotomy a' a with hlt' | rfl | hgt
      · have := hline.apart a' a b' b ha' ha hlt'
        have := lasts hline ha'
        omega
      · exact h
      · omega
  rw [show a + delay div = a + 2 + span div by unfold delay; omega]
  exact (frame_signalled hline hstep hdiv ha hready).2

/-- Nothing else is signalled. -/
theorem timed_of_signals {n : ℕ} {b : Byte} (h : (rx n).signals = some b) :
    ∃ a, n = a + delay div ∧ sent a = some b := by
  have hsent : ∃ a b', n = a + delay div ∧ sent a = some b' := by
    cases n with
    | zero =>
      rw [signals, h₀.valid] at h
      cases h
    | succ n =>
      rcases ready_or_inside hline h₀ hstep hdiv n with hready | ⟨a, b', ha, hready, hle, hlt⟩
      · rw [hstep, signals_of_idle hready.1] at h
        cases h
      · refine ⟨a, b', ?_, ha⟩
        by_contra hne
        unfold delay at hne
        have hquiet := quiet_from_idle hdiv hstep hready.1 (k := n - (a + 2)) (by omega)
        rw [show a + 2 + (n - (a + 2)) + 1 = n + 1 by omega, h] at hquiet
        cases hquiet
  obtain ⟨a, b', rfl, ha⟩ := hsent
  rw [signals_of_timed hline h₀ hstep hdiv ha] at h
  exact ⟨a, rfl, by rw [ha, h]⟩

/-- What is signalled is what was sent, later by the delay. -/
theorem signals_timed : (∀ n, (rx (n + delay div)).signals = sent n) ∧
    (∀ n < delay div, (rx n).signals = none) ∧
    ∀ n, collect (fun k => (rx k).signals) (n + delay div) = collect sent n := by
  have hlate : ∀ n, (rx (n + delay div)).signals = sent n := by
    intro n
    cases ha : sent n with
    | some b => exact signals_of_timed hline h₀ hstep hdiv ha
    | none =>
      refine Option.eq_none_iff_forall_ne_some.mpr fun b hb => ?_
      obtain ⟨a, heq, hab⟩ := timed_of_signals hline h₀ hstep hdiv hb
      obtain rfl : n = a := by omega
      rw [ha] at hab
      cases hab
  have hearly : ∀ n < delay div, (rx n).signals = none := by
    intro n hn
    refine Option.eq_none_iff_forall_ne_some.mpr fun b hb => ?_
    obtain ⟨a, heq, -⟩ := timed_of_signals hline h₀ hstep hdiv hb
    omega
  exact ⟨hlate, hearly, collect_delayed hlate hearly⟩

end Runs

/-! ### After anything on the line -/

variable (hdiv : 4 ≤ div) (line : ℕ → Bool)
include hdiv

theorem cnt_run (n : ℕ) : (run div line n).rxCnt.toNat < div := by
  induction n with
  | zero =>
    change 0 < div
    omega
  | succ n ih => exact cnt_step hdiv ih (line n)

/-- A line that stays high puts the receiver at rest. -/
theorem rests_run {t : ℕ} (hhigh : ∀ k < settle div, line (t + k) = true) :
    (run div line (t + settle div)).Rests := by
  have hstep : ∀ n, run div line (n + 1) = (run div line n).step (line n) := run_step line
  have hsync : ∀ k < settle div, (run div line (t + 2 + k)).rxSync = true := by
    intro k hk
    rw [show t + 2 + k = t + k + 2 by omega, rxSync_late hstep, hhigh k hk]
  unfold settle at *
  have hidle := idle_after_high hdiv hstep (cnt_run hdiv line (t + 2)) fun k hk => hsync k (by omega)
  have hadv := advance_idle hidle
  rw [hsync (9 * div) (by omega)] at hadv
  have hn : t + (9 * div + 3) = t + 2 + 9 * div + 1 := by omega
  refine ⟨?_, ?_, ?_, ?_⟩
  · rw [hn, hstep, step_rxSt, hadv]
    exact hidle
  · rw [hn, hstep, step_rxValid, hadv]
    rfl
  · rw [show t + (9 * div + 3) = t + 2 + (9 * div + 1) by omega]
    exact hsync _ (by omega)
  · have hlate := hsync (9 * div + 2) (by omega)
    rw [show t + 2 + (9 * div + 2) = t + (9 * div + 3) + 1 by omega, hstep, step_rxSync] at hlate
    exact hlate

/-- Whatever was on the line before, once it has been high for nine bit times and three cycles the
receiver signals exactly the bytes sent on it from then on, for any edges that keep the samples
within their bits. -/
theorem resynchronises (t : ℕ) (hhigh : ∀ k < settle div, line (t + k) = true) (edge : ℕ → ℕ → ℕ)
    (sent : ℕ → Option Byte) (hline : Timed div edge sent fun n => line (t + settle div + n)) :
    (∀ n, (run div line (t + settle div + (n + delay div))).signals = sent n) ∧
    (∀ n < delay div, (run div line (t + settle div + n)).signals = none) ∧
    ∀ n, collect (fun k => (run div line (t + settle div + k)).signals) (n + delay div) = collect sent n := by
  let rx : ℕ → UartRx div := fun n => run div line (t + settle div + n)
  have hrest : (rx 0).Rests := rests_run hdiv line hhigh
  have hstep : ∀ n, rx (n + 1) = (rx n).step (line (t + settle div + n)) := fun n => run_step line _
  exact signals_timed hline hrest hstep hdiv

end UartRx

/-! ### A constant bit time -/

/-- A message sent with a byte every `gap` cycles. -/
def burstSent (gap : ℕ) (msg : List Byte) (n : ℕ) : Option Byte :=
  if n % gap = 0 then msg[n / gap]? else none

def burstLine (per gap : ℕ) (msg : List Byte) (n : ℕ) : Bool :=
  (msg[n / gap]?).elim true fun b => lineBit b (n % gap / per)

theorem burstSent_cases {gap : ℕ} {msg : List Byte} {a : ℕ} {b : Byte} (h : burstSent gap msg a = some b) :
    a % gap = 0 ∧ msg[a / gap]? = some b := by
  unfold burstSent at h
  split at h
  · exact ⟨‹_›, h⟩
  · cases h

theorem Paced.burst {per gap : ℕ} (hper : 0 < per) (hgap : 10 * per ≤ gap) (msg : List Byte) :
    Paced per (burstSent gap msg) (burstLine per gap msg) := by
  have hpos : 0 < gap := by omega
  refine ⟨fun a b k ha hk => ?_, fun n hlow => ?_, fun a a' b b' ha ha' hlt => ?_⟩
  · obtain ⟨hzero, hmsg⟩ := burstSent_cases ha
    obtain ⟨m, rfl⟩ := Nat.dvd_of_mod_eq_zero hzero
    have hk' : k < gap := by omega
    rw [Nat.mul_div_cancel_left _ hpos] at hmsg
    rw [burstLine, Nat.mul_add_div hpos, Nat.div_eq_of_lt hk', Nat.add_zero, hmsg, Nat.mul_add_mod,
      Nat.mod_eq_of_lt hk']
    rfl
  · unfold burstLine at hlow
    cases hmsg : msg[n / gap]? with
    | none =>
      rw [hmsg] at hlow
      cases hlow
    | some b =>
      rw [hmsg] at hlow
      refine ⟨gap * (n / gap), b, n % gap, ?_, ?_, (Nat.div_add_mod n gap).symm⟩
      · rw [burstSent, if_pos (Nat.mul_mod_right gap _), Nat.mul_div_cancel_left _ hpos, hmsg]
      · by_contra hk
        have hten : 10 ≤ n % gap / per := (Nat.le_div_iff_mul_le hper).mpr (by omega)
        rw [Option.elim_some, lineBit, if_neg (by omega)] at hlow
        cases hlow
  · obtain ⟨hzero, -⟩ := burstSent_cases ha
    obtain ⟨hzero', -⟩ := burstSent_cases ha'
    obtain ⟨k, rfl⟩ := Nat.dvd_of_mod_eq_zero hzero
    obtain ⟨k', rfl⟩ := Nat.dvd_of_mod_eq_zero hzero'
    have hk : k + 1 ≤ k' := Nat.lt_of_mul_lt_mul_left hlt
    have := Nat.mul_le_mul_left gap hk
    rw [Nat.mul_succ] at this
    omega

/-- What has begun by cycle `n`. -/
theorem collect_burst {gap : ℕ} (hgap : 0 < gap) (msg : List Byte) (n : ℕ) :
    collect (burstSent gap msg) n = msg.take ((n + (gap - 1)) / gap) := by
  induction n with
  | zero => rw [Nat.zero_add, Nat.div_eq_of_lt (by omega)]; rfl
  | succ n ih =>
    rw [collect_succ, ih, burstSent]
    have hdiv := Nat.div_add_mod n gap
    have hmod := Nat.mod_lt n hgap
    have hnext : (n + 1 + (gap - 1)) / gap = n / gap + 1 := by
      rw [show n + 1 + (gap - 1) = n + gap by omega, Nat.add_div_right _ hgap]
    rw [hnext]
    by_cases hzero : n % gap = 0
    · have hnow : (n + (gap - 1)) / gap = n / gap := by
        rw [show n + (gap - 1) = gap * (n / gap) + (gap - 1) by omega, Nat.mul_add_div hgap,
          Nat.div_eq_of_lt (show gap - 1 < gap by omega), Nat.add_zero]
      rw [if_pos hzero, hnow, List.take_add_one]
    · have hnow : (n + (gap - 1)) / gap = n / gap + 1 := by
        rw [show n + (gap - 1) = gap * (n / gap) + gap + (n % gap - 1) by omega,
          ← Nat.mul_succ, Nat.mul_add_div hgap, Nat.div_eq_of_lt (show n % gap - 1 < gap by omega), Nat.add_zero]
      rw [if_neg hzero, hnow, Option.toList_none, List.append_nil]

namespace UartRx

variable {div per : ℕ}

/-- The stop bit decides for all ten. -/
theorem covered (hdiv : 4 ≤ div) (hslow : 9 * per ≤ middle div 9) (hfast : middle div 9 < 10 * per) {i : ℕ}
    (hi : i < 10) : i * per ≤ middle div i ∧ middle div i < (i + 1) * per := by
  unfold middle at *
  rcases Nat.le_total per div with hle | hle
  · -- a fast line: the samples fall behind
    obtain ⟨e, rfl⟩ := Nat.exists_eq_add_of_le hle
    have he : i * e ≤ 9 * e := Nat.mul_le_mul_right e (by omega)
    have hmul : (per + e) * i = i * per + i * e := by rw [Nat.mul_comm, Nat.mul_add]
    rw [hmul, Nat.succ_mul]
    omega
  · -- a slow line: the samples run ahead
    obtain ⟨e, rfl⟩ := Nat.exists_eq_add_of_le hle
    have he : i * e ≤ 9 * e := Nat.mul_le_mul_right e (by omega)
    have hmul : i * (div + e) = div * i + i * e := by rw [Nat.mul_add, Nat.mul_comm i div]
    rw [Nat.succ_mul, hmul]
    omega

end UartRx

theorem Paced.timed {div per : ℕ} {sent : ℕ → Option Byte} {line : ℕ → Bool} (h : Paced per sent line)
    (hdiv : 4 ≤ div) (hslow : 9 * per ≤ UartRx.middle div 9) (hfast : UartRx.middle div 9 < 10 * per) :
    Timed div (fun a i => a + i * per) sent line where
  start a b _ := by rw [Nat.zero_mul, Nat.add_zero]
  bit a b i n ha hi hle hlt := by
    have hmul : (i + 1) * per ≤ 10 * per := Nat.mul_le_mul_right per (by omega)
    have hdivn : (n - a) / per = i := by
      rw [Nat.succ_mul] at hlt
      refine Nat.div_eq_of_lt_le (by omega) ?_
      rw [Nat.succ_mul]
      omega
    rw [← hdivn, ← h.bit a b (n - a) ha (by omega)]
    congr 1
    omega
  idle n hlow := by
    obtain ⟨a, b, k, ha, hk, rfl⟩ := h.idle n hlow
    exact ⟨a, b, ha, Nat.le_add_right a k, by omega⟩
  apart := h.apart
  covers a b i _ hi := by
    obtain ⟨h₁, h₂⟩ := UartRx.covered hdiv hslow hfast hi
    omega

namespace UartRx

variable {div per : ℕ}

/-- In a run from reset the first low cycle of a line that begins low is seen in the idle state. -/
theorem idle_early (line : ℕ → Bool) : (run div line 2).rxSt = .idle := by
  have h₀ : run div line 0 = .reset := rfl
  have hsync := rxSync_early h₀ (run_step line)
  have h₁ := advance_idle (u := run div line 0) rfl
  rw [hsync.1] at h₁
  have h₁' : (run div line 1).rxSt = .idle := by
    rw [run_step, step_rxSt, h₁]
    rfl
  have h₂ := advance_idle h₁'
  rw [hsync.2] at h₂
  rw [run_step, step_rxSt, h₂]
  exact h₁'

/-- A receiver of divisor `DIV` receives everything at a bit time of `per` cycles exactly when its
tenth sample falls within the stop bit. -/
theorem rate_tolerated_iff (hdiv : 4 ≤ div) (hper : 0 < per) :
    (∀ sent line, Paced per sent line → ∀ n, (run div line (n + delay div)).signals = sent n) ↔
      9 * per ≤ div / 2 + 1 + 9 * div ∧ div / 2 + 1 + 9 * div < 10 * per := by
  have hmid : middle div 9 = div / 2 + 1 + 9 * div := by rw [middle, Nat.mul_comm]
  have hmid₀ : middle div 0 + div * 9 = middle div 9 := by unfold middle; omega
  rw [← hmid]
  constructor
  · intro hall
    have hread : ∀ gap b b', 10 * per ≤ gap →
        (run div (burstLine per gap [b, b']) (2 + span div)).signals = some b := by
      intro gap b b' hgap
      have h := hall _ _ (Paced.burst hper hgap [b, b']) 0
      rw [show 0 + delay div = 2 + span div by unfold delay; omega] at h
      rw [h, burstSent, if_pos (Nat.zero_mod gap), Nat.zero_div]
      rfl
    have hsync : ∀ (gap : ℕ) (msg : List Byte) (n : ℕ),
        (run div (burstLine per gap msg) (2 + n)).rxSync = burstLine per gap msg n := by
      intro gap msg n
      rw [Nat.add_comm, rxSync_late (run_step (burstLine per gap msg))]
    have hfirst : ∀ (gap : ℕ) (b b' : Byte), ∀ n < gap, burstLine per gap [b, b'] n = lineBit b (n / per) := by
      intro gap b b' n hn
      rw [burstLine, Nat.div_eq_of_lt hn, Nat.mod_eq_of_lt hn]
      rfl
    have hlow : ∀ (gap : ℕ) (b b' : Byte), 0 < gap →
        (run div (burstLine per gap [b, b']) 2).rxSync = false := by
      intro gap b b' hgap
      rw [← Nat.add_zero 2, hsync, hfirst gap b b' 0 hgap, Nat.zero_div, lineBit_start]
    refine ⟨?_, ?_⟩
    · -- the stop bit of a zero byte would be read as its last data bit
      by_contra hslow
      have hzero : ∀ n < 9 * per, burstLine per (10 * per) [0, 0] n = false := by
        intro n hn
        have hbit : n / per < 9 := Nat.div_lt_of_lt_mul (by omega)
        rw [hfirst _ _ _ _ (by omega)]
        generalize n / per = i at hbit
        interval_cases i <;> rfl
      have hframe := (frame_read hdiv (run_step _) (idle_early (burstLine per (10 * per) [0, 0]))
        (hlow _ _ _ (by omega)) (by rw [hsync, hzero _ (by omega)])).2
      rw [hread (10 * per) 0 0 le_rfl, hsync, hzero _ (by omega)] at hframe
      cases hframe
    · -- the start bit of the next frame would be read as the stop bit
      by_contra hfast
      rw [Nat.not_lt] at hfast
      have hr := hread (middle div 9) (BitVec.allOnes 8) 0 hfast
      by_cases hglitch : per ≤ middle div 0
      · have hhigh : burstLine per (middle div 9) [BitVec.allOnes 8, 0] (middle div 0) = true := by
          have hone : 1 ≤ middle div 0 / per := (Nat.le_div_iff_mul_le hper).mpr (by omega)
          rw [hfirst _ _ _ _ (by omega), lineBit]
          split
          · rename_i hten
            generalize middle div 0 / per = i at hone hten
            interval_cases i <;> rfl
          · rfl
        have hidle := glitch_skipped hdiv (run_step _)
          (idle_early (burstLine per (middle div 9) [BitVec.allOnes 8, 0])) (hlow _ _ _ (by omega))
          (by rw [hsync]; exact hhigh)
        have := middle_last div
        have hquiet := quiet_from_idle hdiv (run_step _) hidle (k := div * 9 - 1) (by omega)
        rw [show 2 + middle div 0 + 1 + (div * 9 - 1) + 1 = 2 + span div by omega, hr] at hquiet
        cases hquiet
      · have hstart : burstLine per (middle div 9) [BitVec.allOnes 8, 0] (middle div 0) = false := by
          rw [hfirst _ _ _ _ (by omega), Nat.div_eq_of_lt (by omega), lineBit_start]
        have hstop : burstLine per (middle div 9) [BitVec.allOnes 8, 0] (middle div 9) = false := by
          rw [burstLine, Nat.div_self (by omega), Nat.mod_self, Nat.zero_div]
          exact lineBit_start 0
        have hframe := (frame_read hdiv (run_step _)
          (idle_early (burstLine per (middle div 9) [BitVec.allOnes 8, 0])) (hlow _ _ _ (by omega))
          (by rw [hsync]; exact hstart)).2
        rw [hr, hsync, hstop] at hframe
        cases hframe
  · rintro ⟨hslow, hfast⟩ sent line hline n
    exact (signals_timed (hline.timed hdiv hslow hfast) Rests.reset (run_step line) hdiv).1 n

/-- At the default divisor a line may be slow by a cycle a bit, but not fast by one. -/
theorem sixteen_tolerates :
    (∀ sent line, Paced 17 sent line → ∀ n, (run 16 line (n + delay 16)).signals = sent n) ∧
      ¬ ∀ sent line, Paced 15 sent line → ∀ n, (run 16 line (n + delay 16)).signals = sent n :=
  ⟨(rate_tolerated_iff (show 4 ≤ 16 by decide) (show 0 < 17 by decide)).mpr (by decide),
    mt (rate_tolerated_iff (show 4 ≤ 16 by decide) (show 0 < 15 by decide)).mp (by decide)⟩

/-- A false start, a pause, and two bytes on a slow line. -/
def noisyLine (n : ℕ) : Bool :=
  if n < 7 then false else if n < 7 + settle 16 then true else burstLine 17 170 [0x41, 0x42] (n - (7 + settle 16))

theorem noisyLine_received :
    collect (fun k => (run 16 noisyLine (7 + settle 16 + k)).signals) (171 + delay 16) = [0x41, 0x42] := by
  have hhigh : ∀ k < settle 16, noisyLine (7 + k) = true := by
    intro k hk
    rw [noisyLine, if_neg (by omega), if_pos (by omega)]
  have hline : Timed 16 (fun a i => a + i * 17) (burstSent 170 [0x41, 0x42])
      (fun n => noisyLine (7 + settle 16 + n)) := by
    have hsame : (fun n => noisyLine (7 + settle 16 + n)) = burstLine 17 170 [0x41, 0x42] := by
      funext n
      rw [noisyLine, if_neg (by omega), if_neg (by omega), Nat.add_sub_cancel_left]
    rw [hsame]
    exact (Paced.burst (by decide) (by decide) _).timed (by decide) (by decide) (by decide)
  refine ((resynchronises (show 4 ≤ 16 by decide) noisyLine 7 hhigh _ _ hline).2.2 171).trans ?_
  exact collect_burst (by decide) _ 171

end UartRx

end FpgaScope
