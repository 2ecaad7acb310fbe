import FpgaScope.Core.Slices
import FpgaScope.Rtl.Capture

/-! Runs of the capture domain. The core inside it runs as a core of its own on the
stream it is fed, so the results about `scope_core` apply; the register file keeps
the configuration still outside `IDLE`; and `ARMED` is entered and left in the few
ways the FSM has. -/

namespace FpgaScope.Capture

open Clocked

variable {p : Params}

/-- A run of the capture domain from reset. -/
def run (c₀ : Capture p) (inp : ℕ → CaptureIn p) : ℕ → Capture p := trace step c₀.reset inp

section
variable (c₀ : Capture p) (inp : ℕ → CaptureIn p)

theorem run_succ (n : ℕ) : run c₀ inp (n + 1) = (run c₀ inp n).step (inp n) := rfl

/-- The stream the core is fed. -/
def coreInp (n : ℕ) : CoreIn p.storeW p.depthLog2 := (run c₀ inp n).coreIn (inp n)

theorem core_run (n : ℕ) : (run c₀ inp n).core = Core.run c₀.core (coreInp c₀ inp) n :=
  trace_component step Core.step c₀.reset inp core coreIn (fun _ _ => rfl) n

/-- State of the capture FSM in cycle `n`. -/
def stAt (n : ℕ) : ScopeState := (run c₀ inp n).core.st

/-- `scope_core` accepts a trigger in cycle `n`. -/
def acceptsAt (n : ℕ) : Bool := (run c₀ inp n).core.trigAccept ((run c₀ inp n).coreIn (inp n))

/-- Some trigger source is asserted in cycle `n`. -/
def trigAt (n : ℕ) : Bool := (run c₀ inp n).trig (inp n)

def disarmAt (n : ℕ) : Bool := (inp n).bus.disarm

end

theorem depthLog2_bounds (p : Params) : 1 ≤ p.depthLog2 ∧ p.depthLog2 ≤ 16 := by
  have := p.le_depthLog2
  have := p.depthLog2_le
  omega

theorem shape_at (c₀ : Capture p) (inp : ℕ → CaptureIn p) (n : ℕ) :
    Core.Shape (run c₀ inp n).core := by
  obtain ⟨hL, hL'⟩ := depthLog2_bounds p
  rw [core_run]
  exact Core.shape_run hL hL' c₀.core (coreInp c₀ inp) n

/-- Outside `IDLE` the core runs for some accepted arm. -/
theorem lastArm_of_busy {c₀ : Capture p} {inp : ℕ → CaptureIn p} {n : ℕ}
    (h : stAt c₀ inp n ≠ .idle) : ∃ a, Core.LastArm c₀.core (coreInp c₀ inp) a n := by
  rw [stAt, core_run] at h
  exact Core.exists_lastArm c₀.core (coreInp c₀ inp) n h

/-! ### The configuration lock -/

/-- Outside `IDLE` no configuration register changes. -/
theorem config_step (c : Csr p) (b : CsrBus) {W L : ℕ} (core : Core W L p.tsW)
    (h : core.st ≠ .idle) :
    (c.step b core).pretrigQ = c.pretrigQ ∧ (c.step b core).trigCfg = c.trigCfg ∧
      (c.step b core).rleEnableQ = c.rleEnableQ ∧ (c.step b core).smplCtrlQ = c.smplCtrlQ := by
  have hlock : Csr.cfgWrOk b core.st = false := by
    simp [Csr.cfgWrOk, Csr.cfgLocked, h]
  simp only [Csr.step, hlock, Bool.false_eq_true, ↓reduceIte]
  exact ⟨trivial, rfl, trivial, trivial⟩

variable {c₀ : Capture p} {inp : ℕ → CaptureIn p}

theorem config_succ {n : ℕ} (h : stAt c₀ inp n ≠ .idle) :
    (run c₀ inp (n + 1)).csr.pretrigQ = (run c₀ inp n).csr.pretrigQ ∧
      (run c₀ inp (n + 1)).csr.trigCfg = (run c₀ inp n).csr.trigCfg ∧
      (run c₀ inp (n + 1)).csr.rleEnableQ = (run c₀ inp n).csr.rleEnableQ ∧
      (run c₀ inp (n + 1)).csr.smplCtrlQ = (run c₀ inp n).csr.smplCtrlQ :=
  config_step _ _ _ h

/-- The lock is what `scope_core` relies on. -/
theorem pretrigHeld (c₀ : Capture p) (inp : ℕ → CaptureIn p) :
    Core.PretrigHeld c₀.core (coreInp c₀ inp) := by
  intro n h _
  rw [← core_run] at h
  exact (config_succ h).1

/-- A completed window, seen from outside the core. -/
theorem window_done {n : ℕ} (hs : stAt c₀ inp n = .triggered) (hd : stAt c₀ inp (n + 1) = .done) :
    ∃ f u k, Core.WindowDone c₀.core (coreInp c₀ inp) n f u k ∧ acceptsAt c₀ inp u = true ∧
      ∀ w, u < w → w ≤ n → stAt c₀ inp w = .triggered := by
  obtain ⟨hL, hL'⟩ := depthLog2_bounds p
  rw [stAt, core_run] at hs hd
  obtain ⟨f, u, k, hw⟩ := Core.window_complete hL hL' (pretrigHeld c₀ inp) hs hd
  have hacc := hw.accept
  rw [← core_run] at hacc
  refine ⟨f, u, k, hw, hacc, fun w h₁ h₂ => ?_⟩
  rw [stAt, core_run]
  exact hw.after w h₁ h₂

/-! ### The FSM seen from outside the core -/

theorem move_at (c₀ : Capture p) (inp : ℕ → CaptureIn p) (n : ℕ) :
    Core.Move (run c₀ inp n).core (coreInp c₀ inp n) (run c₀ inp (n + 1)).core :=
  Core.step_move _ _

/-- `ARMED` is entered from `FILLING`, or kept while nothing is accepted. -/
theorem armed_succ {n : ℕ} (h : stAt c₀ inp (n + 1) = .armed) :
    stAt c₀ inp n = .filling ∨ (stAt c₀ inp n = .armed ∧ acceptsAt c₀ inp n = false) := by
  have hm := move_at c₀ inp n
  unfold stAt at h ⊢
  generalize (run c₀ inp (n + 1)).core = c' at hm h
  cases hm with
  | abort | start | trigger | complete | rearm => cases h
  | rest _ hs _ | fill _ hs _ | post _ hs _ | park _ hs _ => exact absurd (hs.symm.trans h) (by decide)
  | backlog _ hs _ => exact Or.inl hs
  | circulate _ hs hacc => exact Or.inr ⟨hs, hacc⟩

/-- An `ARMED` core stays so until a trigger or a disarm. -/
theorem armed_stays {n : ℕ} (h : stAt c₀ inp n = .armed) (hacc : acceptsAt c₀ inp n = false)
    (hd : disarmAt inp n = false) : stAt c₀ inp (n + 1) = .armed := by
  have hm := move_at c₀ inp n
  unfold stAt at h ⊢
  generalize (run c₀ inp (n + 1)).core = c' at hm ⊢
  cases hm with
  | abort hdis => rw [show disarmAt inp n = true from hdis] at hd; cases hd
  | start ha =>
    simp only [Core.armAccept, h, Bool.and_eq_true] at ha
    exact absurd ha.2 (by decide)
  | circulate => exact h
  | trigger _ _ ht => rw [show acceptsAt c₀ inp n = true from ht] at hacc; cases hacc
  | rest _ hs _ | fill _ hs _ | backlog _ hs _ | post _ hs _ | complete _ hs _
  | rearm _ hs _ _ | park _ hs _ _ => exact absurd (hs.symm.trans h) (by decide)

/-- A `FILLING` core goes on filling or becomes `ARMED` unless it is disarmed. -/
theorem filling_succ {n : ℕ} (h : stAt c₀ inp n = .filling) (hd : disarmAt inp n = false) :
    stAt c₀ inp (n + 1) = .filling ∨ stAt c₀ inp (n + 1) = .armed := by
  have hm := move_at c₀ inp n
  unfold stAt at h ⊢
  generalize (run c₀ inp (n + 1)).core = c' at hm ⊢
  cases hm with
  | abort hdis => rw [show disarmAt inp n = true from hdis] at hd; cases hd
  | start ha =>
    simp only [Core.armAccept, h, Bool.and_eq_true] at ha
    exact absurd ha.2 (by decide)
  | fill => exact Or.inl h
  | backlog => exact Or.inr rfl
  | rest _ hs _ | circulate _ hs _ | trigger _ hs _ | post _ hs _ | complete _ hs _
  | rearm _ hs _ _ | park _ hs _ _ => exact absurd (hs.symm.trans h) (by decide)

/-- Whatever enters `ARMED` comes from a `FILLING` cycle that is not the first one. -/
theorem armed_entry {a : ℕ} (hne : stAt c₀ inp (a - 1) ≠ .armed)
    (harm : stAt c₀ inp a = .armed) : ∃ g, a = g + 2 ∧ stAt c₀ inp (g + 1) = .filling := by
  cases a with
  | zero => cases harm
  | succ a =>
    rw [Nat.add_sub_cancel] at hne
    rcases armed_succ harm with hf | ⟨ha, -⟩
    · cases a with
      | zero => cases hf
      | succ g => exact ⟨g, rfl, hf⟩
    · exact absurd ha hne

/-- Within a window, `ARMED` cycles are consecutive. -/
theorem armed_consecutive {a v : ℕ} (hle : a ≤ v)
    (hw : ∀ w, a ≤ w → w ≤ v → stAt c₀ inp w ≠ .filling) (harm : stAt c₀ inp v = .armed) :
    ∀ w, a ≤ w → w ≤ v → stAt c₀ inp w = .armed := by
  induction v, hle using Nat.le_induction with
  | base =>
    intro w h₁ h₂
    rwa [show w = a by omega]
  | succ v hv ih =>
    rcases armed_succ harm with hf | ⟨ha, -⟩
    · exact absurd hf (hw v hv (by omega))
    · exact Core.extend_range (ih (fun w h₁ h₂ => hw w h₁ (by omega)) ha) harm

theorem accepts_armed {n : ℕ} (h : acceptsAt c₀ inp n = true) : stAt c₀ inp n = .armed :=
  Core.trigAccept_state h

theorem acceptsAt_iff {n : ℕ} : acceptsAt c₀ inp n = true ↔
    (run c₀ inp n).coreTrig (inp n) = true ∧ (run c₀ inp n).sampleValid (inp n) = true ∧
      stAt c₀ inp n = .armed := by
  simp only [acceptsAt, Core.trigAccept, coreIn, Bool.and_eq_true, beq_iff_eq, and_assoc, stAt]

/-! ### Without decimation or qualification -/

/-- `SMPL_CTRL` is never changed from 0. -/
def SmplCtrlZero (inp : ℕ → CaptureIn p) : Prop :=
  ∀ n, (inp n).bus.write = true → (inp n).bus.addr = csrSmplCtrl → (inp n).bus.wdata = 0

/-- Then every cycle is a store tick. -/
theorem sampleEn_run (c₀ : Capture p) (h : SmplCtrlZero inp) (n : ℕ) :
    (run c₀ inp n).sampleEn = true := by
  have hinv : (run c₀ inp n).csr.smplCtrlQ = 0 ∧ (run c₀ inp n).decCnt = 0 := by
    induction n with
    | zero => exact ⟨rfl, rfl⟩
    | succ n ih =>
      obtain ⟨hctrl, hdec⟩ := ih
      constructor
      · rw [run_succ]
        simp only [step, Csr.step]
        split
        · rename_i hok
          simp only [Csr.cfgWrOk, Bool.and_eq_true] at hok
          simp only [Csr.writeCfg, hctrl]
          split
          · rename_i haddr
            exact h n hok.1.1 (by simpa using haddr)
          · rfl
        · exact hctrl
      · rw [run_succ]
        simp only [step, hdec, beq_self_eq_true, ↓reduceIte, Csr.decim, hctrl]
        rfl
  simp only [sampleEn, decTick, qualHit, Csr.qualEn, hinv]
  rfl

end FpgaScope.Capture

/-! ### Small runs -/

namespace FpgaScope

/-- One probe bit, 256 words, no encoder. -/
def oneBit : Params := .small 1 false (by decide)

/-- An all-zero state to start runs from. -/
def Capture.blank (p : Params) : Capture p where
  trigger := .reset
  cmpHitD1 := fun _ => false
  decCnt := 0
  trigPend := false
  rle := .reset
  core := Core.blank _ _ _
  csr := .reset p

/-- A bus cycle without a strobe. -/
def CsrBus.idle : CsrBus := { addr := 0, wdata := 0, write := false, read := false }

def CsrBus.wr (addr : BitVec 8) (wdata : BitVec 32) : CsrBus :=
  { addr := addr, wdata := wdata, write := true, read := false }

def CsrBus.rd (addr : BitVec 8) : CsrBus :=
  { addr := addr, wdata := 0, write := false, read := true }

end FpgaScope
