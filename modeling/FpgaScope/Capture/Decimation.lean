import FpgaScope.Capture.Accept
import FpgaScope.Capture.Config
import FpgaScope.Core.Progress

/-! Decimation. `dec_cnt` counts down to a tick and reloads from `DECIM`; it is neither
reloaded by a write to `SMPL_CTRL` nor by an arm, so a capture may begin with what an
earlier setting left in it. -/

namespace FpgaScope.Capture

open Clocked

variable {p : Params} {c₀ : Capture p} {inp : ℕ → CaptureIn p}

/-! ### The counter -/

theorem decTick_iff (n : ℕ) :
    (run c₀ inp n).decTick = true ↔ (run c₀ inp n).decCnt.toNat = 0 := by
  rw [decTick, beq_iff_eq]
  exact ⟨fun h => by rw [h]; rfl, fun h => BitVec.eq_of_toNat_eq h⟩

theorem decCnt_succ (n : ℕ) : (run c₀ inp (n + 1)).decCnt.toNat =
    if (run c₀ inp n).decCnt.toNat = 0 then (run c₀ inp n).csr.decim.toNat
    else (run c₀ inp n).decCnt.toNat - 1 := by
  change (if (run c₀ inp n).decCnt == 0 then _ else (run c₀ inp n).decCnt - 1 : BitVec 24).toNat = _
  by_cases h : (run c₀ inp n).decCnt = 0
  · rw [h]
    rfl
  · have hpos : (run c₀ inp n).decCnt.toNat ≠ 0 := fun h0 => h (BitVec.eq_of_toNat_eq h0)
    rw [beq_eq_false_iff_ne.mpr h, if_neg (by decide), if_neg hpos, Ring.toNat_pred h]

theorem countdown {n j : ℕ} (hj : j ≤ (run c₀ inp n).decCnt.toNat) :
    (run c₀ inp (n + j)).decCnt.toNat = (run c₀ inp n).decCnt.toNat - j := by
  induction j with
  | zero => rfl
  | succ j ih =>
    rw [← Nat.add_assoc, decCnt_succ, ih (by omega), if_neg (by omega)]
    omega

/-- From any cycle on, the first tick is as far away as the counter says. -/
theorem first_tick (n : ℕ) : (run c₀ inp (n + (run c₀ inp n).decCnt.toNat)).decTick = true ∧
    ∀ v, n ≤ v → v < n + (run c₀ inp n).decCnt.toNat → (run c₀ inp v).decTick = false := by
  refine ⟨?_, fun v h₁ h₂ => ?_⟩
  · rw [decTick_iff, countdown le_rfl, Nat.sub_self]
  · obtain ⟨j, rfl⟩ := Nat.exists_eq_add_of_le h₁
    rw [← Bool.not_eq_true, decTick_iff, countdown (by omega)]
    omega

/-- The counter comes down to a tick again and again. -/
theorem decTick_recurs (c₀ : Capture p) (inp : ℕ → CaptureIn p) :
    Recurs fun n => (run c₀ inp n).decTick = true :=
  fun n => ⟨n + (run c₀ inp n).decCnt.toNat, Nat.le_add_right _ _, (first_tick n).1⟩

/-- After a tick the next one comes `DECIM + 1` cycles later. -/
theorem next_tick {v : ℕ} (h : (run c₀ inp v).decTick = true) :
    (run c₀ inp (v + 1 + (run c₀ inp v).csr.decim.toNat)).decTick = true ∧
      ∀ u, v < u → u < v + 1 + (run c₀ inp v).csr.decim.toNat →
        (run c₀ inp u).decTick = false := by
  have hload : (run c₀ inp (v + 1)).decCnt.toNat = (run c₀ inp v).csr.decim.toNat := by
    rw [decCnt_succ, if_pos ((decTick_iff v).mp h)]
  have hnext := @first_tick _ c₀ inp (v + 1)
  rwa [hload] at hnext

/-! ### A capture -/

/-- A cycle that does not lead to `IDLE` is no disarm. -/
theorem disarm_of_busy {n : ℕ} (h : stAt c₀ inp (n + 1) ≠ .idle) : disarmAt inp n = false := by
  cases hd : disarmAt inp n with
  | false => rfl
  | true =>
    have hstep : (run c₀ inp (n + 1)).core = (run c₀ inp n).core.step (coreInp c₀ inp n) := rfl
    rw [stAt, hstep, Core.step, Core.control, show (coreInp c₀ inp n).disarm = true from hd,
      if_pos rfl] at h
    exact absurd rfl h

/-- In the cycles `f .. e-1` of a capture one cycle in `d + 1` is stored. -/
structure DecimatedBy (c₀ : Capture p) (inp : ℕ → CaptureIn p) (d f e : ℕ) : Prop where
  /-- Exactly one store tick in any `d + 1` consecutive cycles. -/
  one : ∀ k, f ≤ k → k + d < e → ∃! v, k ≤ v ∧ v ≤ k + d ∧ (run c₀ inp v).sampleEn = true
  first : p.rleEn = false → f + d < e →
    ∃ v, f ≤ v ∧ v ≤ f + d ∧ (run c₀ inp v).core.captureWr (coreInp c₀ inp v) = true
  /-- Two samples of one window, next to each other. -/
  apart : p.rleEn = false → ∀ v w, f ≤ v → v < w → w < e →
    (run c₀ inp v).core.captureWr (coreInp c₀ inp v) = true →
    (run c₀ inp w).core.captureWr (coreInp c₀ inp w) = true →
    (∀ u, v < u → u < w → stAt c₀ inp u ≠ .done ∧
      (run c₀ inp u).core.captureWr (coreInp c₀ inp u) = false) → w = v + (d + 1)
  trigger : p.rleEn = false → ∀ t, f ≤ t → t + d < e → stAt c₀ inp t = .armed →
    trigAt c₀ inp t = true → ∃ u, t ≤ u ∧ u ≤ t + d ∧ acceptsAt c₀ inp u = true
  every : d = 0 → ∀ v, f ≤ v → v < e → (run c₀ inp v).sampleEn = true

section
variable {d f e : ℕ} (hbusy : ∀ v, f ≤ v → v < e → stAt c₀ inp v ≠ .idle)
  (hd : (run c₀ inp f).csr.decim.toNat = d) (hq : (run c₀ inp f).csr.qualEn = false)
include hbusy

section
include hd

theorem decim_held {v : ℕ} (h₁ : f ≤ v) (h₂ : v < e) : (run c₀ inp v).csr.decim.toNat = d := by
  have hlock := configOut_locked h₁ fun u a b => hbusy u a (by omega)
  rw [← hd]
  exact congrArg BitVec.toNat (congrArg ConfigOut.decim hlock)

/-- The counter never exceeds `DECIM` once it does not. -/
theorem decCnt_le (hle : (run c₀ inp f).decCnt.toNat ≤ d) {v : ℕ} (h₁ : f ≤ v) (h₂ : v < e) :
    (run c₀ inp v).decCnt.toNat ≤ d := by
  induction v, h₁ using Nat.le_induction with
  | base => exact hle
  | succ v hv ih =>
    have hprev := ih (by omega)
    rw [decCnt_succ, decim_held hbusy hd hv (by omega)]
    split <;> omega

end

include hq in
/-- Without qualification the store ticks are the decimation ticks. -/
theorem sampleEn_eq {v : ℕ} (h₁ : f ≤ v) (h₂ : v < e) :
    (run c₀ inp v).sampleEn = (run c₀ inp v).decTick := by
  have hlock := configOut_locked h₁ fun u a b => hbusy u a (by omega)
  have hoff : (run c₀ inp v).csr.qualEn = false := (congrArg ConfigOut.qualEn hlock).trans hq
  rw [sampleEn, qualHit, hoff]
  exact Bool.and_true _

section
include hd hq

theorem decimated_one (hle : (run c₀ inp f).decCnt.toNat ≤ d) {k : ℕ} (h₁ : f ≤ k)
    (h₂ : k + d < e) : ∃! v, k ≤ v ∧ v ≤ k + d ∧ (run c₀ inp v).sampleEn = true := by
  have hcnt := decCnt_le hbusy hd hle h₁ (by omega)
  obtain ⟨htick, hbefore⟩ := @first_tick _ c₀ inp k
  generalize (run c₀ inp k).decCnt.toNat = m at hcnt htick hbefore
  obtain ⟨-, hafter⟩ := next_tick htick
  rw [decim_held hbusy hd (by omega) (by omega)] at hafter
  refine ⟨k + m, ⟨by omega, by omega, ?_⟩, ?_⟩
  · rw [sampleEn_eq hbusy hq (by omega) (by omega), htick]
  · rintro u ⟨hu, hu', ht⟩
    rw [sampleEn_eq hbusy hq (by omega) (by omega)] at ht
    rcases Nat.lt_trichotomy u (k + m) with h | h | h
    · rw [hbefore u hu h] at ht
      cases ht
    · exact h
    · rw [hafter u h (by omega)] at ht
      cases ht

/-- Two store ticks with none in between. -/
theorem decimated_apart {v w : ℕ} (h₁ : f ≤ v) (hlt : v < w) (h₂ : w < e)
    (hv : (run c₀ inp v).sampleEn = true) (hw : (run c₀ inp w).sampleEn = true)
    (hno : ∀ u, v < u → u < w → (run c₀ inp u).sampleEn = false) : w = v + (d + 1) := by
  rw [sampleEn_eq hbusy hq h₁ (by omega)] at hv
  rw [sampleEn_eq hbusy hq (by omega) h₂] at hw
  obtain ⟨htick, hafter⟩ := next_tick hv
  rw [decim_held hbusy hd h₁ (by omega)] at htick hafter
  rcases Nat.lt_trichotomy w (v + 1 + d) with h | h | h
  · rw [hafter w hlt h] at hw
    cases hw
  · omega
  · have hgap := hno (v + 1 + d) (by omega) h
    rw [sampleEn_eq hbusy hq (by omega) (by omega), htick] at hgap
    cases hgap

end

/-- Up to the first store tick the window is `FILLING` or `ARMED`. -/
theorem waits_for_tick (hr : p.rleEn = false) (hfill : stAt c₀ inp f = .filling) {t : ℕ}
    (hle : f ≤ t) (ht : t < e) (hno : ∀ v, f ≤ v → v < t → (run c₀ inp v).sampleEn = false) :
    stAt c₀ inp t = .filling ∨ stAt c₀ inp t = .armed := by
  induction t, hle using Nat.le_induction with
  | base => exact Or.inl hfill
  | succ t hle ih =>
    have hkeep := disarm_of_busy (hbusy (t + 1) (by omega) ht)
    rcases ih (by omega) fun v h₁ h₂ => hno v h₁ (by omega) with hs | hs
    · exact filling_succ hs hkeep
    · refine Or.inr (armed_stays hs ?_ hkeep)
      rw [← Bool.not_eq_true, acceptsAt_iff, sampleValid, hr, if_neg (by decide),
        hno t hle (Nat.lt_succ_self t)]
      rintro ⟨-, h, -⟩
      cases h

omit hbusy in
/-- Inside a window every store tick stores. -/
theorem captureWr_tick (hr : p.rleEn = false) {v : ℕ} (hidle : stAt c₀ inp v ≠ .idle)
    (hdone : stAt c₀ inp v ≠ .done) (hnext : stAt c₀ inp (v + 1) ≠ .done)
    (hnext' : stAt c₀ inp (v + 1) ≠ .idle) :
    (run c₀ inp v).core.captureWr (coreInp c₀ inp v) = (run c₀ inp v).sampleEn := by
  have hvalid : (coreInp c₀ inp v).sampleValid = (run c₀ inp v).sampleEn := by
    change (run c₀ inp v).sampleValid (inp v) = _
    rw [sampleValid, hr, if_neg (by decide)]
  rw [← hvalid]
  cases hs : stAt c₀ inp v with
  | idle => exact absurd hs hidle
  | done => exact absurd hs hdone
  | filling => exact Core.captureWr_filling _ (Or.inl hs)
  | armed => exact Core.captureWr_filling _ (Or.inr hs)
  | triggered =>
    -- a spent budget would end the window in this cycle
    rw [Core.captureWr_triggered _ hs]
    have hkeep : (coreInp c₀ inp v).disarm = false := disarm_of_busy hnext'
    have hrem : (run c₀ inp v).core.postRemaining ≠ 0 := by
      intro h0
      have hzero : (run c₀ inp v).core.postNext (coreInp c₀ inp v) = 0 := by
        have hwr : (run c₀ inp v).core.postWr (coreInp c₀ inp v) = false := by
          rw [Core.postWr, Core.captureWr_triggered _ hs, h0]
          simp
        rw [Core.postNext, hwr, h0]
        simp
      rcases Core.step_triggered hs hkeep with hstep | ⟨hne, -⟩
      · have hcore : (run c₀ inp (v + 1)).core = _ := hstep
        rw [stAt, hcore] at hnext
        exact hnext rfl
      · exact hne hzero
    rw [bne_iff_ne.mpr hrem, Bool.and_true]

end

theorem sampleEn_of_captureWr (hr : p.rleEn = false) {v : ℕ}
    (h : (run c₀ inp v).core.captureWr (coreInp c₀ inp v) = true) :
    (run c₀ inp v).sampleEn = true := by
  have hvalid : (run c₀ inp v).sampleValid (inp v) = true := Core.captureWr_valid h
  rwa [sampleValid, hr, if_neg (by decide)] at hvalid

theorem busy_of_captureWr {v : ℕ}
    (h : (run c₀ inp v).core.captureWr (coreInp c₀ inp v) = true) : stAt c₀ inp v ≠ .done := by
  intro hs
  rw [Core.captureWr_quiet _ (Or.inr hs)] at h
  cases h

/-- Decimation is exact in a capture exactly if the counter is not above `DECIM` in its
first `FILLING` cycle, or the capture is over before `DECIM + 1` cycles. -/
theorem decimation_exact (c₀ : Capture p) (inp : ℕ → CaptureIn p) (a e : ℕ)
    (harm : (run c₀ inp a).core.armAccept (coreInp c₀ inp a) = true)
    (hbusy : ∀ v, a + 1 ≤ v → v < e → stAt c₀ inp v ≠ .idle)
    (hq : (run c₀ inp (a + 1)).csr.qualEn = false) :
    DecimatedBy c₀ inp (run c₀ inp (a + 1)).csr.decim.toNat (a + 1) e ↔
      (run c₀ inp (a + 1)).decCnt.toNat ≤ (run c₀ inp (a + 1)).csr.decim.toNat ∨
        e ≤ a + 1 + (run c₀ inp (a + 1)).csr.decim.toNat := by
  have hfill : stAt c₀ inp (a + 1) = .filling := by
    have hstart : (run c₀ inp (a + 1)).core = _ := Core.startRun_of_armAccept harm
    rw [stAt, hstart]
    rfl
  obtain ⟨d, hd⟩ : ∃ d, (run c₀ inp (a + 1)).csr.decim.toNat = d := ⟨_, rfl⟩
  rw [hd]
  generalize a + 1 = f at *
  constructor
  · intro h
    by_contra hno
    push Not at hno
    obtain ⟨v, ⟨h₁, h₂, hv⟩, -⟩ := h.one f le_rfl hno.2
    rw [sampleEn_eq hbusy hq h₁ (by omega), (first_tick f).2 v h₁ (by omega)] at hv
    cases hv
  · intro hcond
    refine ⟨fun k h₁ h₂ => ?_, fun hr hlen => ?_, fun hr v w h₁ hlt h₂ hv hw hno => ?_,
      fun hr t h₁ h₂ hs ht => ?_, fun h0 v h₁ h₂ => ?_⟩
    · exact decimated_one hbusy hd hq (hcond.resolve_right (by omega)) h₁ h₂
    · -- the first tick comes while the window waits for it
      have hle := hcond.resolve_right (by omega)
      obtain ⟨htick, hbefore⟩ := @first_tick _ c₀ inp f
      generalize (run c₀ inp f).decCnt.toNat = m at hle htick hbefore
      have hstore : (run c₀ inp (f + m)).sampleEn = true := by
        rw [sampleEn_eq hbusy hq (by omega) (by omega), htick]
      have hwait := waits_for_tick hbusy hr hfill (t := f + m) (by omega) (by omega)
        fun v h₁ h₂ => by rw [sampleEn_eq hbusy hq h₁ (by omega), hbefore v h₁ h₂]
      refine ⟨f + m, by omega, by omega, ?_⟩
      rw [Core.captureWr_filling _ hwait]
      change (run c₀ inp (f + m)).sampleValid (inp (f + m)) = true
      rw [sampleValid, hr, if_neg (by decide), hstore]
    · refine decimated_apart hbusy hd hq h₁ hlt h₂ (sampleEn_of_captureWr hr hv)
        (sampleEn_of_captureWr hr hw) fun u hu hu' => ?_
      obtain ⟨hdone, hcap⟩ := hno u hu hu'
      have hnext : stAt c₀ inp (u + 1) ≠ .done := by
        rcases Nat.lt_or_ge (u + 1) w with h | h
        · exact (hno (u + 1) (by omega) h).1
        · rw [show u + 1 = w by omega]
          exact busy_of_captureWr hw
      rw [← captureWr_tick hr (hbusy u (by omega) (by omega)) hdone hnext
        (hbusy (u + 1) (by omega) (by omega)), hcap]
    · have hle := decCnt_le hbusy hd (hcond.resolve_right (by omega)) h₁ (by omega)
      obtain ⟨htick, hbefore⟩ := @first_tick _ c₀ inp t
      generalize (run c₀ inp t).decCnt.toNat = m at hle htick hbefore
      have hdl : deadline p (t + m) = t + m := by rw [deadline, hr, if_neg (by decide)]
      obtain ⟨u, hu, hu', hacc⟩ := accepted_by_deadline hs (by rw [ht, Bool.true_or])
        (Nat.le_add_right t m) (by rw [sampleEn_eq hbusy hq (by omega) (by omega), htick])
        (fun v a b => by rw [sampleEn_eq hbusy hq (by omega) (by omega), hbefore v a b])
        (fun v a b => disarm_of_busy (hbusy (v + 1) (by omega) (by omega)))
      exact ⟨u, hu, by omega, hacc⟩
    · have hle := decCnt_le hbusy hd (hcond.resolve_right (by omega)) h₁ h₂
      rw [sampleEn_eq hbusy hq h₁ h₂, decTick_iff]
      omega

/-- One sample in four, configured two cycles before the arm. -/
theorem strayIn_decimated : DecimatedBy (blank oneBit) strayIn 3 3 10 := by
  have hbusy : ∀ v < 10, 3 ≤ v → stAt (blank oneBit) strayIn v ≠ .idle := by decide
  exact (decimation_exact (blank oneBit) strayIn 2 10 (by decide) (fun v h₁ h₂ => hbusy v h₂ h₁)
    (by decide)).mpr (by decide)

/-- `DECIM` set to 9, back to 0 in the next cycle, and armed. -/
def leftoverIn (n : ℕ) : CaptureIn oneBit where
  probe := 0
  trigExtI := false
  bus := if n = 0 then .wr csrSmplCtrl 9 else if n = 1 then .wr csrSmplCtrl 0
    else if n = 2 then .wr csrCtrl 1 else .idle

/-- The first `FILLING` cycle stores nothing although every cycle should. -/
theorem leftoverIn_not_decimated :
    ¬ ∀ (p : Params) (c₀ : Capture p) (inp : ℕ → CaptureIn p) (a e : ℕ),
      (run c₀ inp a).core.armAccept (coreInp c₀ inp a) = true →
      (∀ v, a + 1 ≤ v → v < e → stAt c₀ inp v ≠ .idle) →
      (run c₀ inp (a + 1)).csr.qualEn = false →
      DecimatedBy c₀ inp (run c₀ inp (a + 1)).csr.decim.toNat (a + 1) e := by
  intro h
  have hbusy : ∀ v < 4, 3 ≤ v → stAt (blank oneBit) leftoverIn v ≠ .idle := by decide
  have hdec := h oneBit (blank oneBit) leftoverIn 2 4 (by decide) (fun v h₁ h₂ => hbusy v h₂ h₁)
    (by decide)
  exact absurd (hdec.every (by decide) 3 (by decide) (by decide)) (by decide)

end FpgaScope.Capture
