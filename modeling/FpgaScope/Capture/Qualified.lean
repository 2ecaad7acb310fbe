import FpgaScope.Capture.Config
import FpgaScope.Capture.Sequencer

/-! Storage qualification. The comparators look at a probe sample two cycles before it
reaches the core; `cmp_hit_q` and `cmp_hit_d1` carry the verdict along. -/

namespace FpgaScope.Capture

variable {p : Params}

/-- The probe one cycle earlier, 0 before the first. -/
def prevProbe (inp : ℕ → CaptureIn p) : ℕ → BitVec p.probeW
  | 0 => 0
  | t + 1 => (inp t).probe

/-- Comparator `QUAL_SEL` of a configuration hits on the sample of cycle `t`. -/
def qualifies (inp : ℕ → CaptureIn p) (cfg : Csr p) (t : ℕ) : Bool :=
  cfg.trigCfg.hit cfg.qualSel (inp t).probe (prevProbe inp t)

/-- Comparators and `SMPL_CTRL` stay as they are over the cycles `m .. n`. -/
def ConfigHeld (c₀ : Capture p) (inp : ℕ → CaptureIn p) (m n : ℕ) : Prop :=
  ∀ v, m ≤ v → v ≤ n → (run c₀ inp v).csr.trigCfg = (run c₀ inp m).csr.trigCfg ∧
    (run c₀ inp v).csr.smplCtrlQ = (run c₀ inp m).csr.smplCtrlQ

variable {c₀ : Capture p} {inp : ℕ → CaptureIn p}

theorem ConfigHeld.sub {m n m' n' : ℕ} (h : ConfigHeld c₀ inp m n) (hm : m ≤ m') (hle : m' ≤ n)
    (hn : n' ≤ n) : ConfigHeld c₀ inp m' n' := by
  intro v h₁ h₂
  obtain ⟨ht, hs⟩ := h v (by omega) (by omega)
  obtain ⟨ht', hs'⟩ := h m' hm hle
  exact ⟨ht.trans ht'.symm, hs.trans hs'.symm⟩

theorem qualifies_congr {cfg cfg' : Csr p} (ht : cfg'.trigCfg = cfg.trigCfg)
    (hs : cfg'.smplCtrlQ = cfg.smplCtrlQ) (t : ℕ) : qualifies inp cfg' t = qualifies inp cfg t := by
  rw [qualifies, qualifies, ht, Csr.qualSel, Csr.qualSel, hs]

/-- The pipeline of the verdict: `cmp_hit_d1` is two cycles behind the probe. -/
theorem cmpHitD1_run (c₀ : Capture p) (inp : ℕ → CaptureIn p) (t : ℕ) :
    (run c₀ inp (t + 2)).cmpHitD1 =
      (run c₀ inp t).csr.trigCfg.hits (inp t).probe (prevProbe inp t) := by
  change (run c₀ inp (t + 1)).trigger.cmpHitQ = _
  cases t with
  | zero => rfl
  | succ t => exact cmpHitQ_run c₀ inp t

section
variable (hr : p.rleEn = false)
include hr

/-- Without the encoder the core is fed the probe of two cycles ago. -/
theorem sampleData_raw (c₀ : Capture p) (inp : ℕ → CaptureIn p) (t : ℕ) :
    (coreInp c₀ inp (t + 2)).sampleData = (inp t).probe.setWidth p.storeW := by
  change (run c₀ inp (t + 2)).sampleData (inp (t + 2)) = _
  rw [sampleData, hr, if_neg (by decide), sampleO_run]

/-- One sample: presented on a tick on which the qualifier hit it. -/
theorem sampleValid_qualified {t : ℕ} (hheld : ConfigHeld c₀ inp t (t + 2))
    (hq : (run c₀ inp t).csr.qualEn = true) :
    (coreInp c₀ inp (t + 2)).sampleValid = true ↔
      (run c₀ inp (t + 2)).decTick = true ∧ qualifies inp (run c₀ inp t).csr t = true := by
  have hctrl := (hheld (t + 2) (by omega) le_rfl).2
  have hq' : (run c₀ inp (t + 2)).csr.qualEn = true := by rw [Csr.qualEn, hctrl]; exact hq
  have hsel : (run c₀ inp (t + 2)).csr.qualSel = (run c₀ inp t).csr.qualSel := by
    rw [Csr.qualSel, Csr.qualSel, hctrl]
  change (run c₀ inp (t + 2)).sampleValid (inp (t + 2)) = true ↔ _
  rw [sampleValid, hr, if_neg (by decide), sampleEn, Bool.and_eq_true, qualHit, hq', if_pos rfl,
    hsel, cmpHitD1_run]
  rfl

end

/-! ### A whole capture -/

/-- A cycle without an accepted configuration write. -/
theorem config_kept {n : ℕ} (h : Csr.cfgWrOk (inp n).bus (stAt c₀ inp n) = false) :
    (run c₀ inp (n + 1)).csr.trigCfg = (run c₀ inp n).csr.trigCfg ∧
      (run c₀ inp (n + 1)).csr.smplCtrlQ = (run c₀ inp n).csr.smplCtrlQ := by
  rw [run_succ]
  simp only [step, Csr.step, show Csr.cfgWrOk (inp n).bus (run c₀ inp n).core.st = false from h,
    Bool.false_eq_true, ↓reduceIte]
  exact ⟨rfl, trivial⟩

/-- Nothing is configured from the cycle before the arm on. -/
theorem configHeld_capture {a n : ℕ} (ha : Core.LastArm c₀.core (coreInp c₀ inp) a n)
    (hn : stAt c₀ inp n ≠ .idle)
    (hlast : ∀ w, w + 1 = a → Csr.cfgWrOk (inp w).bus (stAt c₀ inp w) = false) :
    ConfigHeld c₀ inp (a - 1) n := by
  have hbusy := busy_since_arm ha hn
  have hlt := ha.lt
  have hkept : ∀ v, a - 1 ≤ v → v < n → Csr.cfgWrOk (inp v).bus (stAt c₀ inp v) = false := by
    intro v h₁ h₂
    rcases Nat.lt_trichotomy v a with h | rfl | h
    · exact hlast v (by omega)
    · have harm := ha.accept
      simp only [Core.armAccept, Bool.and_eq_true] at harm
      exact cfgWrOk_arm harm.1.1 _
    · rw [Csr.cfgWrOk, Csr.cfgLocked, bne_iff_ne.mpr (hbusy v h h₂.le), Bool.not_true, Bool.and_false]
  intro v h₁ h₂
  induction v, h₁ using Nat.le_induction with
  | base => exact ⟨rfl, rfl⟩
  | succ v hv ih =>
    obtain ⟨ht, hs⟩ := config_kept (hkept v hv (by omega))
    obtain ⟨ht', hs'⟩ := ih (by omega)
    exact ⟨ht.trans ht', hs.trans hs'⟩

theorem captureWr_busy {n : ℕ} (h : (run c₀ inp n).core.captureWr (coreInp c₀ inp n) = true) :
    stAt c₀ inp n ≠ .idle := by
  intro hidle
  rw [Core.captureWr_quiet _ (Or.inl hidle)] at h
  cases h

/-- The trigger sample is stored, and `trig_index` is where. -/
theorem accepted_stored {n : ℕ} (h : acceptsAt c₀ inp n = true) :
    (run c₀ inp n).core.captureWr (coreInp c₀ inp n) = true ∧
      (run c₀ inp (n + 1)).core.trigIndex = (run c₀ inp n).core.wrAddrW := by
  have harm := Core.trigAccept_state h
  refine ⟨?_, ?_⟩
  · rw [Core.captureWr_filling _ (Or.inr harm)]
    exact Core.trigAccept_valid h
  · exact (Core.step_latches _ _).2.1.trans (if_pos h)

/-- With `QUAL_EN` set a probe sample is presented to the core exactly on a decimation
tick on which comparator `QUAL_SEL` hit that sample, so a capture armed two cycles
after the last configuration write holds qualified samples only, the trigger sample
among them. -/
theorem qualification_exact (hr : p.rleEn = false) (c₀ : Capture p) (inp : ℕ → CaptureIn p) :
    (∀ t, ConfigHeld c₀ inp t (t + 2) → (run c₀ inp t).csr.qualEn = true →
      (coreInp c₀ inp (t + 2)).sampleData = (inp t).probe.setWidth p.storeW ∧
      ((coreInp c₀ inp (t + 2)).sampleValid = true ↔
        (run c₀ inp (t + 2)).decTick = true ∧ qualifies inp (run c₀ inp t).csr t = true)) ∧
    (∀ a n, Core.LastArm c₀.core (coreInp c₀ inp) a n →
      (∀ w, w + 1 = a → Csr.cfgWrOk (inp w).bus (stAt c₀ inp w) = false) →
      (run c₀ inp n).csr.qualEn = true →
      (run c₀ inp n).core.captureWr (coreInp c₀ inp n) = true →
      ∃ s, n = s + 2 ∧ qualifies inp (run c₀ inp n).csr s = true ∧
        (run c₀ inp (n + 1)).core.uBuf.mem (run c₀ inp n).core.wrAddrW =
          (inp s).probe.setWidth p.storeW) ∧
    (∀ n, acceptsAt c₀ inp n = true →
      (run c₀ inp n).core.captureWr (coreInp c₀ inp n) = true ∧
      (run c₀ inp (n + 1)).core.trigIndex = (run c₀ inp n).core.wrAddrW) := by
  refine ⟨fun t hheld hq => ⟨sampleData_raw hr c₀ inp t, sampleValid_qualified hr hheld hq⟩, ?_,
    fun n h => accepted_stored h⟩
  intro a n ha hlast hq hcap
  have hlt := ha.lt
  have hheld := configHeld_capture ha (captureWr_busy hcap) hlast
  have hvalid : (coreInp c₀ inp n).sampleValid = true := Core.captureWr_valid hcap
  have hword := Core.stored_word hcap
  -- the enable bit was not there at reset, so the sample is not from before the run
  have hn : 2 ≤ n := by
    by_contra hlt2
    obtain rfl : n = 1 := by omega
    have hreset := (hheld 1 (by omega) le_rfl).2
    rw [Csr.qualEn, hreset] at hq
    rw [show a - 1 = 0 by omega] at hq
    simp [run, reset, Csr.reset] at hq
  obtain ⟨s, rfl⟩ := Nat.exists_eq_add_of_le hn
  rw [Nat.add_comm 2 s] at *
  obtain ⟨ht, hs⟩ := hheld s (by omega) (by omega)
  obtain ⟨ht', hs'⟩ := hheld (s + 2) (by omega) le_rfl
  have hq' : (run c₀ inp s).csr.qualEn = true := by rw [Csr.qualEn, hs, ← hs']; exact hq
  have hexact := (sampleValid_qualified hr (hheld.sub (by omega) (by omega) le_rfl) hq').mp hvalid
  refine ⟨s, rfl, ?_, hword.trans (sampleData_raw hr c₀ inp s)⟩
  rw [qualifies_congr (ht'.trans ht.symm) (hs'.trans hs.symm)]
  exact hexact.2

/-- Comparator 0 set to the level 1 and selected as qualifier; armed in cycle 5. -/
def levelIn (n : ℕ) : CaptureIn oneBit where
  probe := BitVec.ofNat 1 (n / 2)
  trigExtI := false
  bus := if n = 0 then .wr csrCmpLaneBase 1 else if n = 1 then .wr csrCmpSel 4
    else if n = 2 then .wr csrCmpLaneBase 1 else if n = 3 then .wr csrSmplCtrl 0x1000000
    else if n = 5 then .wr csrCtrl 1 else .idle

/-- The sample of cycle 4 does not qualify, the one of cycle 6 is stored in cycle 8. -/
theorem levelIn_qualified :
    ((coreInp (blank oneBit) levelIn 6).sampleValid = true ↔
      (run (blank oneBit) levelIn 6).decTick = true ∧
        qualifies levelIn (run (blank oneBit) levelIn 4).csr 4 = true) ∧
    ∃ s, 8 = s + 2 ∧ qualifies levelIn (run (blank oneBit) levelIn 8).csr s = true ∧
      (run (blank oneBit) levelIn 9).core.uBuf.mem (run (blank oneBit) levelIn 8).core.wrAddrW =
        (levelIn s).probe.setWidth oneBit.storeW := by
  have h := qualification_exact rfl (blank oneBit) levelIn
  have hheld : ConfigHeld (blank oneBit) levelIn 4 6 := by
    intro v h₁ h₂
    obtain rfl | rfl | rfl : v = 4 ∨ v = 5 ∨ v = 6 := by omega
    · exact ⟨rfl, rfl⟩
    · exact config_kept (by decide)
    · obtain ⟨ht, hs⟩ := @config_kept _ (blank oneBit) levelIn 5 (by decide)
      obtain ⟨ht', hs'⟩ := @config_kept _ (blank oneBit) levelIn 4 (by decide)
      exact ⟨ht.trans ht', hs.trans hs'⟩
  have hquiet : ∀ v < 8, 5 < v →
      Core.armAccept (Core.run (blank oneBit).core (coreInp (blank oneBit) levelIn) v)
        (coreInp (blank oneBit) levelIn v) = false := by decide
  refine ⟨(h.1 4 hheld (by decide)).2, h.2.1 5 8 ⟨by decide, by decide, fun v h₁ h₂ =>
    hquiet v h₂ h₁⟩ ?_ (by decide) (by decide)⟩
  intro w hw
  obtain rfl : w = 4 := by omega
  decide

end FpgaScope.Capture
