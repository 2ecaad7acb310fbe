import FpgaScope.Board.Bus
import FpgaScope.Capture.Single

/-! The script up to the arm. A soft reset takes the core to `IDLE` whatever it was doing; there
the configuration is what the writes make of it, and the arm is accepted. -/

namespace FpgaScope

open Clocked

variable {p : Params}

/-! ### The configuration registers -/

namespace Csr

/-- The registers that the host configures, the others as reset leaves them. -/
def config (c : Csr p) : Csr p :=
  { reset p with
    cmpSelQ := c.cmpSelQ
    cmpQ := c.cmpQ
    trigCombineQ := c.trigCombineQ
    seqCntQ := c.seqCntQ
    rleEnableQ := c.rleEnableQ
    smplCtrlQ := c.smplCtrlQ
    pretrigQ := c.pretrigQ
    windowsQ := c.windowsQ }

theorem config_next {W L : ℕ} (c : Csr p) (b : CsrBus) (core : Core W L p.tsW) :
    (c.step b core).config = if cfgWrOk b core.st then c.config.writeCfg b else c.config := by
  unfold step
  split <;> rfl

end Csr

/-! ### Accesses to the window -/

/-- A write to `CTRL`. -/
def ctrlWrite : ByteAccess → Bool
  | .write a _ => selScope a && regWord a == csrCtrl
  | .read _ => false

/-- The bus of a write. -/
def writeBus (a d : BitVec 32) : CsrBus where
  addr := regWord a
  wdata := d
  write := selScope a
  read := false

namespace CsrBus

variable {b : CsrBus} (h : b.wrCtrl = false)
include h

theorem arm_off : b.arm = false := by rw [arm, h, Bool.false_and]

theorem disarm_off : b.disarm = false := by rw [disarm, h, Bool.false_and]

theorem softRst_off : b.softRst = false := by rw [softRst, h, Bool.false_and]

end CsrBus

variable {c₀ : Capture p} {inp : ℕ → CaptureIn p} {b : BusSignals (BitVec 32) (BitVec 32)}

open Capture

namespace OnWindow

variable (w : OnWindow c₀ inp b)
include w

theorem wrCtrl_off {n : ℕ} (h : ∀ x, b.issued n = some x → ctrlWrite x = false) : (inp n).bus.wrCtrl = false := by
  cases hx : b.issued n with
  | none => rw [CsrBus.wrCtrl, (w.quiet n hx).1, Bool.false_and]
  | some x =>
    cases x with
    | write a d =>
      rw [w.write n a d hx]
      exact h _ hx
    | read a =>
      obtain ⟨d, hd⟩ := w.read n a hx
      rw [hd]
      rfl

/-- Only writes change the configuration. -/
theorem config_kept {n : ℕ} (h : ∀ x, b.issued n = some x → ∃ a, x = .read a) :
    (run c₀ inp (n + 1)).csr.config = (run c₀ inp n).csr.config := by
  have hwrite : (inp n).bus.write = false := by
    cases hx : b.issued n with
    | none => exact (w.quiet n hx).1
    | some x =>
      obtain ⟨a, rfl⟩ := h x hx
      obtain ⟨d, hd⟩ := w.read n a hx
      rw [hd]
  rw [run_succ]
  change (Csr.step _ _ _).config = _
  rw [Csr.config_next, Csr.cfgWrOk, hwrite, Bool.false_and, Bool.false_and, if_neg (by decide)]

end OnWindow

/-- What `rd32` returns is the register in the cycle of the read. -/
theorem OnWindow.rd32 (w : OnWindow c₀ inp b) {I : ℕ → Prop} {a : BitVec 32} (hsel : selScope a = true)
    (hstep : ∀ n, I n → (∀ x, b.issued n = some x → x = .read a) → I (n + 1)) :
    Triple b I (Console.rd32 a) fun v n => (∃ m d, I m ∧
      v = ((run c₀ inp m).csr.rdata { addr := regWord a, wdata := d, write := false, read := true }
        (run c₀ inp m).core).toNat) ∧ I n := by
  refine .read (M := fun v n => (∃ m d, I m ∧
    v.toNat = ((run c₀ inp m).csr.rdata { addr := regWord a, wdata := d, write := false, read := true }
        (run c₀ inp m).core).toNat) ∧ I n) (fun t u v x h hacc hresp => ?_) fun d => .done fun t h => h
  obtain ⟨hnow, hnext⟩ := hacc.carry hstep h
  obtain ⟨d, hd⟩ := w.read u a hacc.issued
  obtain ⟨-, hvalue⟩ := w.answer hacc.issued hresp
  refine ⟨⟨u, d, hnow, ?_⟩, hresp.carry hstep (hnext rfl)⟩
  rw [hvalue hsel, csrRdata, hd, hsel]

/-! ### The configuration -/

/-- In `IDLE` since cycle `s`, with the configuration `c`. -/
structure Ready (c₀ : Capture p) (inp : ℕ → CaptureIn p) (s : ℕ) (c : Csr p) (n : ℕ) : Prop where
  since : s ≤ n
  idle : ∀ v, s ≤ v → v ≤ n → stAt c₀ inp v = .idle
  config : (run c₀ inp n).csr.config = c

/-- The configuration after a write in `IDLE`. -/
def applied (c : Csr p) (x : BitVec 32 × BitVec 32) : Csr p :=
  if Csr.cfgWrOk (writeBus x.1 x.2) .idle then c.writeCfg (writeBus x.1 x.2) else c

theorem idle_succ {n : ℕ} (h : stAt c₀ inp n = .idle) (harm : (inp n).bus.arm = false) :
    stAt c₀ inp (n + 1) = .idle := by
  by_contra hne
  rw [arm_of_idle h hne] at harm
  cases harm

/-- A disarm takes the core to `IDLE`. -/
theorem idle_of_disarm {n : ℕ} (h : disarmAt inp n = true) : stAt c₀ inp (n + 1) = .idle := by
  have hstep : (run c₀ inp (n + 1)).core = (run c₀ inp n).core.step (coreInp c₀ inp n) := rfl
  rw [stAt, hstep, Core.step, Core.control, show (coreInp c₀ inp n).disarm = true from h, if_pos rfl]

namespace Ready

variable (w : OnWindow c₀ inp b) {s : ℕ} {c : Csr p}

theorem stays {n : ℕ} (h : Ready c₀ inp s c n) {c' : Csr p} (hidle : stAt c₀ inp (n + 1) = .idle)
    (hconfig : (run c₀ inp (n + 1)).csr.config = c') : Ready c₀ inp s c' (n + 1) :=
  ⟨h.since.trans (Nat.le_succ n), Core.extend_range h.idle hidle, hconfig⟩

include w

theorem step {n : ℕ} (h : Ready c₀ inp s c n) (hx : ∀ x, b.issued n = some x → ∃ a, x = .read a) :
    Ready c₀ inp s c (n + 1) := by
  refine h.stays (idle_succ (h.idle n h.since le_rfl) (CsrBus.arm_off (w.wrCtrl_off fun x hx' => ?_)))
    ((w.config_kept hx).trans h.config)
  obtain ⟨a, rfl⟩ := hx x hx'
  rfl

theorem write {n : ℕ} (h : Ready c₀ inp s c n) {a d : BitVec 32} (hx : b.issued n = some (.write a d))
    (hctrl : ctrlWrite (.write a d) = false) : Ready c₀ inp s (applied c (a, d)) (n + 1) := by
  have hidle := h.idle n h.since le_rfl
  refine h.stays (idle_succ hidle (CsrBus.arm_off (w.wrCtrl_off fun x hx' => ?_))) ?_
  · rw [hx] at hx'
    exact Option.some.inj hx' ▸ hctrl
  · rw [run_succ]
    change (Csr.step _ _ _).config = _
    rw [Csr.config_next, w.write n a d hx, show (run c₀ inp n).core.st = .idle from hidle, h.config]
    rfl

/-- Reads change nothing. -/
theorem read (s : ℕ) (c : Csr p) (a : BitVec 32) :
    Triple b (Ready c₀ inp s c) (Console.rd32 a) fun _ => Ready c₀ inp s c :=
  .keeps ⟨⟨a, rfl⟩, fun _ => trivial⟩ fun _ h hx => h.step w hx

/-- The writes of the console one after the other. -/
theorem wrAll (xs : List (BitVec 32 × BitVec 32)) (hxs : ∀ x ∈ xs, ctrlWrite (.write x.1 x.2) = false) (s : ℕ)
    (c : Csr p) : Triple b (Ready c₀ inp s c) (Console.wrAll xs) fun _ => Ready c₀ inp s (xs.foldl applied c) := by
  induction xs generalizing c with
  | nil => exact .done fun _ h => h
  | cons x xs ih =>
    refine .write (fun t u h hacc => ?_) (ih (fun y hy => hxs y (List.mem_cons_of_mem _ hy)) (applied c x))
    obtain ⟨hnow, -⟩ := hacc.carry (fun n hn hx => hn.step w hx) h
    exact hnow.write w hacc.issued (hxs x List.mem_cons_self)

end Ready

end FpgaScope
