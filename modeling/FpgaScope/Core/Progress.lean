import FpgaScope.Core.Slices

/-! A run that is left alone. When samples keep coming and every window is triggered, each
window fills, arms, triggers and completes, and after the last one the FSM parks in
`DONE`. -/

namespace FpgaScope.Core

open Clocked

variable {W L T : ℕ}

/-- The run armed in cycle `a` is neither aborted nor armed anew, its sample stream goes on
and each of its windows is triggered. -/
structure Unhindered (c₀ : Core W L T) (inp : ℕ → CoreIn W L) (a : ℕ) : Prop where
  armed : armAccept (run c₀ inp a) (inp a) = true
  quiet : ∀ v, a < v → armAccept (run c₀ inp v) (inp v) = false
  kept : ∀ v, a < v → (inp v).disarm = false
  samples : Recurs fun n => (inp n).sampleValid = true
  triggers : ∀ n, a < n → (run c₀ inp n).st = .armed →
    ∃ m, n ≤ m ∧ trigAccept (run c₀ inp m) (inp m) = true

/-! ### One cycle, state by state -/

section
variable {c : Core W L T} {i : CoreIn W L}

theorem step_filling (hs : c.st = .filling) (hd : i.disarm = false) :
    step c i = { datapath c i with st := .armed } ∨
      (¬ (pretrigEff c i).setWidth (L + 1) ≤ fillNext c i ∧ step c i = datapath c i) := by
  by_cases h : (pretrigEff c i).setWidth (L + 1) ≤ fillNext c i
  · exact Or.inl (by simp [step, control, hd, hs, h])
  · exact Or.inr ⟨h, by simp [step, control, hd, hs, h]⟩

theorem step_armed (hs : c.st = .armed) (hd : i.disarm = false) :
    step c i = if trigAccept c i then { datapath c i with st := .triggered } else datapath c i := by
  simp [step, control, hd, hs]

theorem step_triggered (hs : c.st = .triggered) (hd : i.disarm = false) :
    step c i = { datapath c i with st := .done, windowsDone := c.windowsDone + 1 } ∨
      (postNext c i ≠ 0 ∧ step c i = datapath c i) := by
  have hstep : step c i = if postNext c i = 0 then
      { datapath c i with st := .done, windowsDone := c.windowsDone + 1 } else datapath c i := by
    rw [step, control, hd, if_neg (by decide), hs]
  by_cases h : postNext c i = 0
  · exact Or.inl (hstep.trans (if_pos h))
  · exact Or.inr ⟨h, hstep.trans (if_neg h)⟩

theorem step_done (hs : c.st = .done) (hd : i.disarm = false) (ha : armAccept c i = false) :
    step c i = if c.windowsDone < c.windowsQ then nextWindow (datapath c i) else datapath c i := by
  have ha' : i.arm = false := by simpa [armAccept, hd, hs] using ha
  simp [step, control, hd, hs, ha']

end

/-! ### One window -/

section
variable {c₀ : Core W L T} {inp : ℕ → CoreIn W L} {a n : ℕ} {w : BitVec 8}

/-- The FSM is in state `s` with `w` windows done. -/
def At (c₀ : Core W L T) (inp : ℕ → CoreIn W L) (s : ScopeState) (w : BitVec 8) (n : ℕ) : Prop :=
  (run c₀ inp n).st = s ∧ (run c₀ inp n).windowsDone = w

variable (h : Unhindered c₀ inp a)
include h

/-- `FILLING` comes to its end: every sample is one less to wait for. -/
theorem Unhindered.fills (hL : 1 ≤ L) (hL' : L ≤ 16) (hp : PretrigHeld c₀ inp) (ha : a < n)
    (hn : At c₀ inp .filling w n) : ∃ m, n < m ∧ At c₀ inp .armed w m := by
  refine h.samples.exhausts (fun k => preAt c₀ inp k - (run c₀ inp k).fillCnt.toNat) hn ?_
  rintro k hk ⟨hs, hw⟩
  rcases step_filling hs (h.kept k (by omega)) with hstep | ⟨hlt, hstep⟩
  · exact Or.inl (by rw [At, run_succ, hstep]; exact ⟨rfl, hw⟩)
  · have hsh := shape_run hL hL' c₀ inp k
    have hcnt := fillCnt_datapath hL hL' hsh hlt
    rw [pretrigEff_le_iff hL hL' hsh, fillNext_toNat hL, ← preAt] at hlt
    have hst : (run c₀ inp (k + 1)).st = .filling := by rw [run_succ, hstep]; exact hs
    have hpre := preAt_succ k hp (by simp [hs]) (by simp [hst]) (by rw [run_succ, hstep]; rfl)
    have hwr : fillWr (run c₀ inp k) (inp k) = (inp k).sampleValid := by
      rw [fillWr, captureWr_filling _ (Or.inl hs), hs, beq_self_eq_true, Bool.and_true]
    rw [← hstep, ← run_succ, fillNext_toNat hL, hwr] at hcnt
    refine Or.inr ⟨⟨hst, by rw [run_succ, hstep]; exact hw⟩, ?_⟩
    rw [hpre, hcnt]
    refine ⟨by omega, fun hv => ?_⟩
    rw [hwr, hv, Bool.toNat_true] at hlt
    rw [hv, Bool.toNat_true]
    omega

/-- `ARMED` comes to its end with the trigger. -/
theorem Unhindered.fires (ha : a < n) (hn : At c₀ inp .armed w n) :
    ∃ m, n < m ∧ At c₀ inp .triggered w m := by
  obtain ⟨m₀, hm₀, hacc₀⟩ := h.triggers n ha hn.1
  have hnext : ∀ k, n ≤ k → k ≤ m₀ →
      (∃ m, n < m ∧ At c₀ inp .triggered w m) ∨ At c₀ inp .armed w k := by
    intro k hk
    induction k, hk using Nat.le_induction with
    | base => exact fun _ => Or.inr hn
    | succ k hk ih =>
      intro hle
      rcases ih (by omega) with hend | ⟨hs, hw⟩
      · exact Or.inl hend
      · have hstep := step_armed hs (h.kept k (by omega))
        by_cases hacc : trigAccept (run c₀ inp k) (inp k) = true
        · rw [if_pos hacc] at hstep
          exact Or.inl ⟨k + 1, by omega, by rw [At, run_succ, hstep]; exact ⟨rfl, hw⟩⟩
        · rw [if_neg hacc] at hstep
          exact Or.inr (by rw [At, run_succ, hstep]; exact ⟨hs, hw⟩)
  rcases hnext m₀ hm₀ le_rfl with hend | ⟨hs, hw⟩
  · exact hend
  · have hstep := step_armed hs (h.kept m₀ (by omega))
    rw [if_pos hacc₀] at hstep
    exact ⟨m₀ + 1, by omega, by rw [At, run_succ, hstep]; exact ⟨rfl, hw⟩⟩

/-- `TRIGGERED` comes to its end with the post budget. -/
theorem Unhindered.completes (hL : 1 ≤ L) (ha : a < n) (hn : At c₀ inp .triggered w n) :
    ∃ m, n < m ∧ At c₀ inp .done (w + 1) m := by
  refine h.samples.exhausts (fun k => (run c₀ inp k).postRemaining.toNat) hn ?_
  rintro k hk ⟨hs, hw⟩
  rcases step_triggered hs (h.kept k (by omega)) with hstep | ⟨hne, hstep⟩
  · exact Or.inl (by rw [At, run_succ, hstep, ← hw]; exact ⟨rfl, rfl⟩)
  · have hsum := postNext_toNat hL (run c₀ inp k) (inp k)
    have hpost : (run c₀ inp (k + 1)).postRemaining = postNext (run c₀ inp k) (inp k) := by
      rw [run_succ, hstep]
      exact postRemaining_datapath hs
    refine Or.inr ⟨by rw [At, run_succ, hstep]; exact ⟨hs, hw⟩, by rw [hpost]; omega, fun hv => ?_⟩
    have hpos : 0 < (postNext (run c₀ inp k) (inp k)).toNat :=
      Nat.pos_of_ne_zero fun h0 => hne (BitVec.eq_of_toNat_eq h0)
    have hrem : (run c₀ inp k).postRemaining ≠ 0 := by
      intro h0
      rw [h0] at hsum
      change _ = 0 at hsum
      omega
    have hwr : postWr (run c₀ inp k) (inp k) = true := by
      rw [postWr, captureWr_triggered _ hs, hv, hs]
      simpa using hrem
    rw [hwr, Bool.toNat_true] at hsum
    rw [hpost]
    omega

/-- A window goes from `FILLING` to `DONE`. -/
theorem Unhindered.window (hL : 1 ≤ L) (hL' : L ≤ 16) (hp : PretrigHeld c₀ inp) (ha : a < n)
    (hn : At c₀ inp .filling w n) : ∃ m, n < m ∧ At c₀ inp .done (w + 1) m := by
  obtain ⟨m₁, h₁, hm₁⟩ := h.fills hL hL' hp ha hn
  obtain ⟨m₂, h₂, hm₂⟩ := h.fires (by omega) hm₁
  obtain ⟨m₃, h₃, hm₃⟩ := h.completes hL (by omega) hm₂
  exact ⟨m₃, by omega, hm₃⟩

/-! ### The whole run -/

theorem Unhindered.lastArm (ha : a < n) : LastArm c₀ inp a n :=
  ⟨ha, h.armed, fun v h₁ _ => h.quiet v h₁⟩

/-- From a completed window on the run gets to the last one. -/
theorem Unhindered.windows (hL : 1 ≤ L) (hL' : L ≤ 16) (hp : PretrigHeld c₀ inp) (ha : a < n)
    (hn : At c₀ inp .done w n) :
    ∃ m, n ≤ m ∧ (run c₀ inp m).st = .done ∧
      ¬ (run c₀ inp m).windowsDone < (run c₀ inp m).windowsQ := by
  induction hr : (inp a).windows.toNat - w.toNat generalizing n w with
  | zero =>
    refine ⟨n, le_rfl, hn.1, ?_⟩
    rw [hn.2, (h.lastArm ha).windowsQ, BitVec.lt_def]
    omega
  | succ r ih =>
    have hq : (run c₀ inp n).windowsQ = (inp a).windows := (h.lastArm ha).windowsQ
    have hlt : (run c₀ inp n).windowsDone < (run c₀ inp n).windowsQ := by
      rw [hn.2, hq, BitVec.lt_def]
      omega
    have hstep := step_done hn.1 (h.kept n ha) (h.quiet n ha)
    rw [if_pos hlt] at hstep
    have hfill : At c₀ inp .filling w (n + 1) := by
      rw [At, run_succ, hstep]
      exact ⟨rfl, hn.2⟩
    obtain ⟨m, hm, hdone⟩ := h.window hL hL' hp (by omega) hfill
    have hmax := (inp a).windows.isLt
    have hw : (w + 1).toNat = w.toNat + 1 := by
      rw [BitVec.toNat_add]
      exact Nat.mod_eq_of_lt (by change w.toNat + 1 < 256; omega)
    obtain ⟨m', hm', hpark⟩ := ih (n := m) (w := w + 1) (by omega) hdone (by omega)
    exact ⟨m', by omega, hpark⟩

/-- A run that is left alone parks, and stays parked. -/
theorem Unhindered.parks (hL : 1 ≤ L) (hL' : L ≤ 16) (hp : PretrigHeld c₀ inp) :
    ∃ d, a < d ∧ ∀ m, d ≤ m → (run c₀ inp m).st = .done ∧
      ¬ (run c₀ inp m).windowsDone < (run c₀ inp m).windowsQ := by
  have hfirst : At c₀ inp .filling 0 (a + 1) := by
    rw [At, run_succ, startRun_of_armAccept h.armed]
    exact ⟨rfl, rfl⟩
  obtain ⟨m₁, h₁, hdone⟩ := h.window hL hL' hp (Nat.lt_succ_self a) hfirst
  obtain ⟨d, hd, hpark⟩ := h.windows hL hL' hp (by omega) hdone
  refine ⟨d, by omega, fun m hm => ?_⟩
  induction m, hm using Nat.le_induction with
  | base => exact hpark
  | succ m hm ih =>
    have hstep := step_done ih.1 (h.kept m (by omega)) (h.quiet m (by omega))
    rw [if_neg ih.2] at hstep
    rw [run_succ, hstep]
    exact ih

end

end FpgaScope.Core
