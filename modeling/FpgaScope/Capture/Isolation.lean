import FpgaScope.Capture.Accept

/-! What the transport can do to a capture: nothing. Reads, and writes to anything but `CTRL`
and the configuration, change the drain pointer, the window selector, the timestamp shadow
and the read ports of the two memories, and no register of the trigger, the encoder or the
core is computed from any of these. -/

namespace FpgaScope

open Clocked

variable {p : Params}

/-! ### What a bus cycle says to the capture -/

namespace CsrBus

variable (b : CsrBus)

/-- A write to `CTRL` or to a configuration register. -/
def control : Option (BitVec 8 × BitVec 32) :=
  if b.write && (b.addr == csrCtrl || b.isCfgAddr) then some (b.addr, b.wdata) else none

/-- The bus cycle with that write and nothing else. -/
def ofControl : Option (BitVec 8 × BitVec 32) → CsrBus
  | some (addr, wdata) => .wr addr wdata
  | none => .idle

/-- `control` tells either the whole write or that there was none for the capture. -/
theorem control_cases :
    (ofControl b.control = { b with read := false } ∧ b.write = true) ∨
      (ofControl b.control = .idle ∧ b.wrCtrl = false ∧ (b.write && b.isCfgAddr) = false) := by
  unfold control wrCtrl
  cases hw : b.write with
  | false => exact Or.inr ⟨rfl, rfl, rfl⟩
  | true =>
    rw [Bool.true_and, Bool.true_and, Bool.true_and]
    cases hc : b.addr == csrCtrl with
    | true => exact Or.inl ⟨by rw [CsrBus.ofControl.eq_def]; simp [CsrBus.wr], rfl⟩
    | false =>
      cases hf : b.isCfgAddr with
      | true => exact Or.inl ⟨by simp [ofControl, CsrBus.wr], rfl⟩
      | false => exact Or.inr ⟨rfl, rfl, rfl⟩

/-- The strobes are writes to `CTRL`. -/
theorem control_strobes :
    (ofControl b.control).arm = b.arm ∧ (ofControl b.control).disarm = b.disarm := by
  rcases b.control_cases with ⟨hb, -⟩ | ⟨hb, hctrl, -⟩
  · rw [hb]
    exact ⟨rfl, rfl⟩
  · rw [hb, arm, arm, disarm, disarm, hctrl]
    exact ⟨rfl, rfl⟩

end CsrBus

/-! ### The state without the read side -/

section
variable {W L T : ℕ}

/-- The inputs of the core without the read addresses. -/
def CoreIn.steer (i : CoreIn W L) : CoreIn W L := { i with rdAddr := 0, winRdAddr := 0 }

namespace Core

/-- The registers of the core. -/
def steer (c : Core W L T) : Core W L T :=
  { c with uBuf := ⟨fun _ => 0, 0⟩, uWinMeta := ⟨fun _ => 0, 0⟩ }

/-- The FSM decides on the registers alone. -/
theorem steer_control (c d : Core W L T) (i : CoreIn W L) :
    (c.control i d).steer = c.steer.control i.steer d.steer := by
  have hwires : c.steer.pretrigEff i.steer = c.pretrigEff i ∧ c.steer.fillNext i.steer = c.fillNext i ∧
      c.steer.trigAccept i.steer = c.trigAccept i ∧ c.steer.postNext i.steer = c.postNext i ∧
      c.steer.st = c.st ∧ i.steer.arm = i.arm ∧ i.steer.disarm = i.disarm ∧
      c.steer.windowsDone = c.windowsDone ∧ c.steer.windowsQ = c.windowsQ :=
    ⟨rfl, rfl, rfl, rfl, rfl, rfl, rfl, rfl, rfl⟩
  obtain ⟨h1, h2, h3, h4, h5, h6, h7, h8, h9⟩ := hwires
  unfold control
  rw [h1, h2, h3, h4, h5, h6, h7, h8, h9]
  cases c.st <;> simp only [apply_ite steer] <;> rfl

theorem steer_step (c : Core W L T) (i : CoreIn W L) : (c.step i).steer = (c.steer.step i.steer).steer := by
  rw [step, step, steer_control, steer_control]
  rfl

end Core

end

namespace Csr

/-- The configuration, `cfg_err` and the pending force. -/
def steer (c : Csr p) : Csr p := { c with drainAddr := 0, drainLane := 0, winSelQ := 0, tsHiShadow := 0 }

theorem steer_step {W L : ℕ} (c : Csr p) (b : CsrBus) (core : Core W L p.tsW) :
    (c.step b core).steer = (c.steer.step (.ofControl b.control) core.steer).steer := by
  rcases b.control_cases with ⟨hb, -⟩ | ⟨hb, hctrl, hcfg⟩
  · rw [hb]
    have hok : cfgWrOk { b with read := false } core.steer.st = cfgWrOk b core.st := rfl
    unfold step
    rw [hok]
    cases cfgWrOk b core.st <;> rfl
  · rw [hb]
    have hok : cfgWrOk b core.st = false := by rw [cfgWrOk, hcfg, Bool.false_and]
    have herr : c.cfgErrNext b core.st = c.cfgErr := by
      have hwin : (b.write && b.addr == csrWindows) = false := by
        rw [Bool.and_eq_false_iff] at hcfg ⊢
        exact hcfg.imp_right fun h => by rw [CsrBus.isCfgAddr] at h; simp_all
      rw [cfgErrNext, CsrBus.softRst, hctrl, hcfg, hwin]
      rfl
    have hforce : c.forcePendNext b core.st = c.forcePendNext .idle core.st := by
      rw [forcePendNext, forcePendNext, CsrBus.disarm, CsrBus.forceStrobe, hctrl]
      rfl
    unfold step
    rw [hok, herr, hforce]
    rfl

end Csr

/-- What one cycle of the inputs says to the capture. -/
def CaptureIn.steer (i : CaptureIn p) : CaptureIn p := { i with bus := .ofControl i.bus.control }

namespace Capture

/-- The capture domain without its read side. -/
def steer (c : Capture p) : Capture p := { c with core := c.core.steer, csr := c.csr.steer }

theorem steer_coreIn (c : Capture p) (i : CaptureIn p) :
    (c.coreIn i).steer = (c.steer.coreIn i.steer).steer := by
  obtain ⟨harm, hdisarm⟩ := i.bus.control_strobes
  have h : c.steer.coreIn i.steer =
      { c.steer.coreIn i with
        arm := (CsrBus.ofControl i.bus.control).arm, disarm := (CsrBus.ofControl i.bus.control).disarm } := rfl
  rw [h, harm, hdisarm]
  rfl

theorem steer_step (c : Capture p) (i : CaptureIn p) :
    (c.step i).steer = (c.steer.step i.steer).steer := by
  have hcore : (c.core.step (c.coreIn i)).steer = (c.steer.core.step (c.steer.coreIn i.steer)).steer := by
    rw [Core.steer_step, steer_coreIn, Core.steer_step c.steer.core]
    rfl
  have hcsr : (c.csr.step i.bus c.core).steer = (c.steer.csr.step i.steer.bus c.steer.core).steer := by
    rw [Csr.steer_step]
    rfl
  unfold steer step
  rw [hcore, hcsr]
  rfl

/-! ### Runs with resets of their own -/

/-- One edge of `clk`. The memories are written in reset as well. -/
def edge (c : Capture p) (i : Bool × CaptureIn p) : Capture p :=
  if i.1 then (c.step i.2).reset else c.step i.2

/-- A run through any resets, from the release of the first. -/
def runRst (c₀ : Capture p) (inp : ℕ → Bool × CaptureIn p) : ℕ → Capture p := trace edge c₀.reset inp

/-- Reset leaves nothing of the state before. -/
theorem steer_reset (c d : Capture p) : c.reset.steer = d.reset.steer := rfl

theorem steer_edge {c c' : Capture p} {i i' : Bool × CaptureIn p} (hc : c.steer = c'.steer)
    (hi : (i.1, i.2.steer) = (i'.1, i'.2.steer)) : (edge c i).steer = (edge c' i').steer := by
  obtain ⟨hrst, hin⟩ := Prod.mk.inj hi
  unfold edge
  rw [← hrst]
  cases i.1 with
  | true => rfl
  | false =>
    change (c.step i.2).steer = (c'.step i'.2).steer
    rw [steer_step, hc, hin, ← steer_step]

/-- What a capture does in one cycle: the FSM, the ports of the buffer and of the metadata
memory, and the registers the host reads the result from. -/
structure Observed (p : Params) where
  st : ScopeState
  bufWrEn : Bool
  bufWrAddr : BitVec p.depthLog2
  bufWrData : BitVec p.storeW
  trigIndex : BitVec p.depthLog2
  tsAtTrig : BitVec p.tsW
  metaWrEn : Bool
  metaWrAddr : BitVec 8
  metaWrData : BitVec (p.depthLog2 + 1)
  trigExtO : Bool

/-- As `Core.datapath` drives them. -/
def observed (c : Capture p) (i : CaptureIn p) : Observed p where
  st := c.core.st
  bufWrEn := c.core.captureWr (c.coreIn i)
  bufWrAddr := c.core.wrAddrW
  bufWrData := c.sampleData i
  trigIndex := c.core.trigIndex
  tsAtTrig := c.core.tsAtTrig
  metaWrEn := c.core.windowDoneNow (c.coreIn i) && !(c.coreIn i).disarm
  metaWrAddr := c.core.winIdx
  metaWrData := BitVec.cons (c.core.wrappedNext (c.coreIn i)) c.core.trigIndex
  trigExtO := c.trigger.trigExtO (c.trigIn i)

theorem observed_steer (c : Capture p) (i : CaptureIn p) : observed c i = observed c.steer i.steer := by
  have hdisarm : (c.coreIn i).disarm = (c.steer.coreIn i.steer).disarm := i.bus.control_strobes.2.symm
  unfold observed
  rw [hdisarm]
  rfl

/-- The same reset, probe and external trigger, and the same writes to `CTRL` and to the
configuration in the same cycles. -/
structure SameStimulus (inp inp' : ℕ → Bool × CaptureIn p) : Prop where
  rst : ∀ n, (inp n).1 = (inp' n).1
  probe : ∀ n, (inp n).2.probe = (inp' n).2.probe
  trigExtI : ∀ n, (inp n).2.trigExtI = (inp' n).2.trigExtI
  control : ∀ n, (inp n).2.bus.control = (inp' n).2.bus.control

/-- Two runs that differ in what the memories held before, in their reads and in their
writes to every other address are the same capture in every cycle. -/
theorem transport_isolated (c₀ c₀' : Capture p) (inp inp' : ℕ → Bool × CaptureIn p)
    (h : SameStimulus inp inp') (n : ℕ) :
    observed (runRst c₀ inp n) (inp n).2 = observed (runRst c₀' inp' n) (inp' n).2 := by
  have hin : ∀ k, (inp k).2.steer = (inp' k).2.steer := by
    intro k
    unfold CaptureIn.steer
    rw [h.probe k, h.trigExtI k, h.control k]
  have hrun : (runRst c₀ inp n).steer = (runRst c₀' inp' n).steer :=
    trace_unwinding steer (fun i => (i.1, i.2.steer)) (fun _ _ _ _ => steer_edge) (steer_reset c₀ c₀')
      (fun k => Prod.ext (h.rst k) (hin k)) n
  rw [observed_steer, hrun, hin n, ← observed_steer]

/-- `forcedIn` alone, and with the whole transport at work around it. -/
def hammered (n : ℕ) : Bool × CaptureIn oneBit :=
  (false, { forcedIn n with
    bus :=
      if n = 0 then { addr := csrCtrl, wdata := 1, write := true, read := true }
      else if n = 1 then { addr := csrBufCtrl, wdata := 1, write := true, read := false }
      else if n = 2 then .wr csrCtrl 4
      else if n = 3 then .wr csrWinSel 7
      else { addr := csrBufData, wdata := 0, write := false, read := true } })

theorem hammered_isolated :
    SameStimulus (fun n => (false, forcedIn n)) hammered ∧
      (∃ n, (forcedIn n).bus ≠ (hammered n).2.bus) ∧
      ∀ n, observed (runRst (blank oneBit) (fun n => (false, forcedIn n)) n) (forcedIn n) =
        observed (runRst (blank oneBit) hammered n) (hammered n).2 := by
  have hsame : SameStimulus (fun n => (false, forcedIn n)) hammered := by
    refine ⟨fun _ => rfl, fun _ => rfl, fun _ => rfl, fun n => ?_⟩
    unfold forcedIn hammered
    split_ifs <;> first | rfl | omega
  exact ⟨hsame, ⟨1, fun h => absurd (congrArg CsrBus.write h) (by decide)⟩,
    transport_isolated _ _ _ _ hsame⟩

end Capture

end FpgaScope
