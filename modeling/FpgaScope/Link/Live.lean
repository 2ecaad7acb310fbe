import FpgaScope.Link.Atomic
import FpgaScope.Link.Delivery
import FpgaScope.Link.Drained

/-! The transport never gets stuck. Its FIFOs deliver as long as both clocks tick, and one
operation is under way at a time, so a word that waits is offered and there is always room:
the link that the transport refines is a fair one. What holds of fair links carries over,
from any instant of a run in which the engine hunts. -/

namespace FpgaScope

open Protocol Clocked

/-! ### Empty queues -/

namespace Link

variable {p : Params} (ℓ : Link p) (e : LinkEvent p)

/-- An empty queue may as well claim to show a word. -/
def eager : LinkEvent p :=
  { e with
    cmdRdValid := e.cmdRdValid || ℓ.cmdQ.isEmpty
    rspRdValid := e.rspRdValid || ℓ.rspQ.isEmpty }

theorem cmdShown_eager : ℓ.cmdShown (ℓ.eager e) = ℓ.cmdShown e := by
  unfold cmdShown eager
  cases ℓ.cmdQ with
  | nil => simp
  | cons x xs => simp

theorem rspShown_eager : ℓ.rspShown (ℓ.eager e) = ℓ.rspShown e := by
  unfold rspShown eager
  cases ℓ.rspQ with
  | nil => simp
  | cons x xs => simp

theorem engineIn_eager : ℓ.engineIn (ℓ.eager e) = ℓ.engineIn e := by
  unfold engineIn drainIn
  rw [rspShown_eager]
  rfl

theorem executed_eager : ℓ.executed (ℓ.eager e) = ℓ.executed e := rfl

theorem step_eager : ℓ.step (ℓ.eager e) = ℓ.step e := by
  unfold step drainIn cmdPopped rspPopped
  rw [cmdShown_eager, rspShown_eager]
  rfl

/-- An engine that does not wait has nothing under way. -/
theorem Phase.done {O : List CsrOp} {R : List (BitVec 32)} {C : List (CsrOp × BitVec 32)} {ℓ : Link p}
    (h : ℓ.Phase O R C) (hst : ℓ.drain.st ≠ .csrWait) : (ℓ.cmdQ = [] ∧ ℓ.servicer.sv = .idle ∧ ℓ.rspQ = []) ∧
      O = C.map Prod.fst ∧ R = C.map Prod.snd := by
  cases h with
  | idle hc hs hr hO hR => exact ⟨⟨hc, hs, hr⟩, hO, hR⟩
  | sent hw | exec hw | push hw | back hw => exact absurd hw hst

/-- The replies latched are results of strobes. -/
theorem Phase.replies_told {O : List CsrOp} {R : List (BitVec 32)} {C : List (CsrOp × BitVec 32)}
    {ℓ : Link p} (h : ℓ.Phase O R C) : R <+: C.map Prod.snd := by
  cases h with
  | idle _ _ _ _ hR | sent _ _ _ _ _ hR | exec _ _ _ _ _ hR => rw [hR]
  | push _ _ _ _ _ _ hR | back _ _ _ _ _ hR => exact hR ▸ List.prefix_append _ _

end Link

namespace Transport

variable {p : Params}

section
variable (t₀ : Transport p) (ev : ℕ → TransportEvent p)

/-! ### The link of a run -/

/-- The transport after reset with queues for FIFOs. -/
def startLink : Link p where
  drain := t₀.drain.reset
  cmdQ := []
  servicer := .reset
  rspQ := []
  capture := t₀.capture.reset

/-- The link that a run refines. -/
def link : ℕ → Link p := Link.run t₀.startLink fun n => (run t₀ ev n).linkEvent (ev n)

/-- Its events, with queues that are eager while they are empty. -/
def linkEv (n : ℕ) : LinkEvent p := (link t₀ ev n).eager ((run t₀ ev n).linkEvent (ev n))

theorem refines_link (n : ℕ) : Refines (run t₀ ev n) (link t₀ ev n) (cmdPushedWords t₀ ev n)
    (cmdPoppedWords t₀ ev n) (rspPushedWords t₀ ev n) (rspPoppedWords t₀ ev n) := by
  induction n with
  | zero => exact ⟨rfl, rfl, rfl, .reset _, .reset _, rfl, rfl⟩
  | succ n ih => exact ih.step (ev n)

theorem startLink_quiet : t₀.startLink.Quiet := ⟨rfl, rfl, rfl, rfl⟩

theorem run_linkEv (n : ℕ) : Link.run t₀.startLink (linkEv t₀ ev) n = link t₀ ev n := by
  induction n with
  | zero => rfl
  | succ n ih =>
    change (Link.run t₀.startLink (linkEv t₀ ev) n).step (linkEv t₀ ev n) = _
    rw [ih, linkEv, Link.step_eager]
    rfl

theorem engineIn_linkEv (n : ℕ) :
    (link t₀ ev n).engineIn (linkEv t₀ ev n) = (run t₀ ev n).engineIn (ev n) := by
  rw [linkEv, Link.engineIn_eager, (refines_link t₀ ev n).engineIn]

theorem history_linkEv (n : ℕ) : Link.history t₀.startLink (linkEv t₀ ev) n = history t₀ ev n := by
  induction n with
  | zero => rfl
  | succ n ih =>
    rw [Link.history, history, ih, run_linkEv, engineIn_linkEv, (refines_link t₀ ev n).drain]

theorem calls_linkEv (n : ℕ) : Link.calls t₀.startLink (linkEv t₀ ev) n = calls t₀ ev n := by
  refine collect_congr fun k _ => ?_
  rw [run_linkEv, linkEv, Link.executed_eager, (refines_link t₀ ev k).executed]

theorem phase_link (n : ℕ) : (link t₀ ev n).Phase (history t₀ ev n).operations
    (history t₀ ev n).replies (calls t₀ ev n) := by
  have h : (Link.run t₀.startLink (linkEv t₀ ev) n).Phase _ _ _ := Link.phase_run (startLink_quiet t₀) n
  rwa [run_linkEv, history_linkEv, calls_linkEv] at h

/-! ### The FIFOs of a run -/

/-- Their events. -/
def cmdEv (n : ℕ) : FifoEvent cmdFifoParams := (run t₀ ev n).cmdEvent (ev n)

def rspEv (n : ℕ) : FifoEvent rspFifoParams := (run t₀ ev n).rspEvent (ev n)

theorem cmdFifo_run (n : ℕ) : FifoAsync.run t₀.cmdFifo (cmdEv t₀ ev) n = (run t₀ ev n).cmdFifo :=
  (trace_component step FifoAsync.step t₀.reset ev cmdFifo cmdEvent (fun _ _ => rfl) n).symm

theorem rspFifo_run (n : ℕ) : FifoAsync.run t₀.rspFifo (rspEv t₀ ev) n = (run t₀ ev n).rspFifo :=
  (trace_component step FifoAsync.step t₀.reset ev rspFifo rspEvent (fun _ _ => rfl) n).symm

theorem cmdQ_eq (n : ℕ) : (link t₀ ev n).cmdQ = (FifoAsync.pushedWords t₀.cmdFifo (cmdEv t₀ ev) n).drop
    (FifoAsync.poppedWords t₀.cmdFifo (cmdEv t₀ ev) n).length := by
  have hpush : FifoAsync.pushedWords t₀.cmdFifo (cmdEv t₀ ev) n = cmdPushedWords t₀ ev n :=
    collect_congr fun k _ => by rw [cmdFifo_run]; rfl
  have hpop : FifoAsync.poppedWords t₀.cmdFifo (cmdEv t₀ ev) n = cmdPoppedWords t₀ ev n :=
    collect_congr fun k _ => by rw [cmdFifo_run]; rfl
  rw [hpush, hpop, (refines_link t₀ ev n).cmdQ]
  rfl

theorem rspQ_eq (n : ℕ) : (link t₀ ev n).rspQ = (FifoAsync.pushedWords t₀.rspFifo (rspEv t₀ ev) n).drop
    (FifoAsync.poppedWords t₀.rspFifo (rspEv t₀ ev) n).length := by
  have hpush : FifoAsync.pushedWords t₀.rspFifo (rspEv t₀ ev) n = rspPushedWords t₀ ev n :=
    collect_congr fun k _ => by rw [rspFifo_run]; rfl
  have hpop : FifoAsync.poppedWords t₀.rspFifo (rspEv t₀ ev) n = rspPoppedWords t₀ ev n :=
    collect_congr fun k _ => by rw [rspFifo_run]; rfl
  rw [hpush, hpop, (refines_link t₀ ev n).rspQ]
  rfl

variable {t₀ ev}

/-- One operation is under way at most. -/
theorem cmdQ_length_le (n : ℕ) : (link t₀ ev n).cmdQ.length ≤ 1 := by
  cases phase_link t₀ ev n with
  | idle hc | exec _ hc | push _ hc | back _ hc => rw [hc]; exact Nat.zero_le 1
  | sent _ hc => rw [hc]; exact le_rfl

theorem rspQ_length_le (n : ℕ) : (link t₀ ev n).rspQ.length ≤ 1 := by
  cases phase_link t₀ ev n with
  | idle _ _ hr | sent _ _ _ hr | exec _ _ _ hr | push _ _ _ hr => rw [hr]; exact Nat.zero_le 1
  | back _ _ _ hr => rw [hr]; exact le_rfl

/-- A FIFO that holds less than its RAM has room. -/
theorem fifo_accepts {q : FifoParams} (f₀ : FifoAsync q) {fev : ℕ → FifoEvent q}
    (hw : Recurs fun n => (fev n).wclk = true)
    (hlt : ∀ n, ((FifoAsync.pushedWords f₀ fev n).drop (FifoAsync.poppedWords f₀ fev n).length).length <
      q.depth) : Recurs fun n => (fev n).wclk = true ∧ (FifoAsync.run f₀ fev n).wrReady = true := by
  intro n
  refine FifoAsync.accepts hw ?_
  have h := hlt n
  rw [List.length_drop] at h
  unfold FifoAsync.issued
  omega

/-- A FIFO that is not empty shows a word. -/
theorem fifo_shows {q : FifoParams} (f₀ : FifoAsync q) {fev : ℕ → FifoEvent q}
    (hr : Recurs fun n => (fev n).rclk = true) {l : ℕ → List (BitVec q.width)}
    (hl : ∀ n, l n = (FifoAsync.pushedWords f₀ fev n).drop (FifoAsync.poppedWords f₀ fev n).length) :
    Recurs fun n => (fev n).rclk = true ∧
      ((FifoAsync.run f₀ fev n).rdValid || (l n).isEmpty) = true := by
  intro n
  obtain ⟨m, hm, hc⟩ := hr n
  by_cases he : (l m).isEmpty = true
  · exact ⟨m, hm, hc, by rw [he, Bool.or_true]⟩
  · have hlt : (FifoAsync.poppedWords f₀ fev m).length < (FifoAsync.pushedWords f₀ fev m).length := by
      rw [hl, List.isEmpty_iff, List.drop_eq_nil_iff] at he
      omega
    obtain ⟨k, hk, hc, hv⟩ := FifoAsync.offers hr hlt
    exact ⟨k, by omega, hc, by rw [hv, Bool.true_or]⟩

/-- Clocks that tick and a host that takes bytes are all it needs. -/
theorem fair (hclk : Recurs fun n => (ev n).clk = true)
    (htx : Recurs fun n => (ev n).xclk = true ∧ (ev n).txReady = true) : Link.Fair (linkEv t₀ ev) := by
  have hxclk : Recurs fun n => (ev n).xclk = true := htx.mono fun _ h => h.1
  have hcmdIn := fifo_accepts t₀.cmdFifo (show Recurs fun n => (cmdEv t₀ ev n).wclk = true from hxclk)
    fun n => by rw [← cmdQ_eq]; exact (cmdQ_length_le n).trans_lt (by decide)
  have hcmdOut := fifo_shows t₀.cmdFifo (show Recurs fun n => (cmdEv t₀ ev n).rclk = true from hclk)
    (cmdQ_eq t₀ ev)
  have hrspIn := fifo_accepts t₀.rspFifo (show Recurs fun n => (rspEv t₀ ev n).wclk = true from hclk)
    fun n => by rw [← rspQ_eq]; exact (rspQ_length_le n).trans_lt (by decide)
  have hrspOut := fifo_shows t₀.rspFifo (show Recurs fun n => (rspEv t₀ ev n).rclk = true from hxclk)
    (rspQ_eq t₀ ev)
  simp only [cmdFifo_run, rspFifo_run] at hcmdIn hcmdOut hrspIn hrspOut
  exact ⟨htx, hcmdIn, hcmdOut, hrspIn, hrspOut⟩

end

/-! ### Requests -/

/-- The engine comes back to receiving. -/
theorem returns {t₀ : Transport p} {ev : ℕ → TransportEvent p} (hclk : Recurs fun n => (ev n).clk = true)
    (htx : Recurs fun n => (ev n).xclk = true ∧ (ev n).txReady = true) (n : ℕ) :
    ∃ m, n ≤ m ∧ (run t₀ ev m).drain.rxReady = true ∧
      (history t₀ ev m).received = (history t₀ ev n).received := by
  have hback : ∃ m, n ≤ m ∧ (Link.run t₀.startLink (linkEv t₀ ev) m).drain.rxReady = true ∧
      (Link.history t₀.startLink (linkEv t₀ ev) m).received =
        (Link.history t₀.startLink (linkEv t₀ ev) n).received :=
    Link.returns (startLink_quiet t₀) (fair hclk htx) n
  obtain ⟨m, hm, hrx, hrec⟩ := hback
  rw [history_linkEv, history_linkEv] at hrec
  rw [run_linkEv, (refines_link t₀ ev m).drain] at hrx
  exact ⟨m, hm, hrx, hrec⟩

/-- The results of the strobes as a stream. -/
def results (C : List (CsrOp × BitVec 32)) (k : ℕ) : BitVec 32 := (C.map Prod.snd).getD k 0

theorem agrees_results {C : List (CsrOp × BitVec 32)} {H : History} (hR : H.replies = C.map Prod.snd) : H.Agrees (results C) := by
  intro k x hx
  rw [results, List.getD_eq_getElem?_getD, ← hR, hx, Option.getD_some]

/-- While the engine receives, everything is executed and answered. -/
theorem settled_run {t₀ : Transport p} {ev : ℕ → TransportEvent p} {n : ℕ}
    (hrx : (run t₀ ev n).drain.rxReady = true) :
    (history t₀ ev n).replies = (calls t₀ ev n).map Prod.snd ∧
      ∀ ρ, (history t₀ ev n).Agrees ρ → (calls t₀ ev n).map Prod.fst = ((history t₀ ev n).due p ρ).ops ∧
        (history t₀ ev n).emitted = ((history t₀ ev n).due p ρ).sent := by
  have hst : (link t₀ ev n).drain.st ≠ .csrWait := by
    intro hst
    rw [← (refines_link t₀ ev n).drain, Drain.rxReady, hst] at hrx
    cases hrx
  obtain ⟨-, hO, hR⟩ := (phase_link t₀ ev n).done hst
  refine ⟨hR, fun ρ hρ => ?_⟩
  have hserves : Drain.Serves ρ (Link.run t₀.startLink (linkEv t₀ ev) n).drain
      (Link.history t₀.startLink (linkEv t₀ ev) n) :=
    (Link.execution _ _).serves (.start rfl) n (by rw [history_linkEv]; exact hρ)
  rw [run_linkEv, history_linkEv] at hserves
  obtain ⟨hsent, hops⟩ := hserves.settled (by rw [(refines_link t₀ ev n).drain]; exact hrx)
  exact ⟨hO.symm.trans hops, hsent⟩

/-- The transport serves all requests. With clocks that tick and a host that takes bytes
again and again, the engine always comes back to receiving without any further byte. By
then the strobes on the native bus are the operations of the reference answers to the
requests received, in this order and each once, and the bytes sent are those answers, built
from the results of these strobes. -/
theorem requests_served (t₀ : Transport p) (ev : ℕ → TransportEvent p)
    (hclk : Recurs fun n => (ev n).clk = true)
    (htx : Recurs fun n => (ev n).xclk = true ∧ (ev n).txReady = true) (n : ℕ) :
    ∃ m, n ≤ m ∧ (run t₀ ev m).drain.rxReady = true ∧
      (history t₀ ev m).received = (history t₀ ev n).received ∧
      let rs := (parse (history t₀ ev m).received).1
      let ref := answer p (wordBytes p) rs (results (calls t₀ ev m))
      (calls t₀ ev m).map Prod.fst = ref.ops ∧
      ((history t₀ ev m).emitted = ref.sent ↔ AllIntact p rs (results (calls t₀ ev m))) := by
  obtain ⟨m, hm, hrx, hrec⟩ := returns hclk htx n
  obtain ⟨hR, hdone⟩ := settled_run hrx
  obtain ⟨hops, hsent⟩ := hdone _ (agrees_results hR)
  refine ⟨m, hm, hrx, hrec, hops.trans (answer_ops _ _ _ _), ?_⟩
  rw [hsent]
  exact answer_sent_eq_iff _ _

/-- Registers to reset. -/
def blank (p : Params) : Transport p where
  drain := Drain.blank p
  cmdFifo := FifoAsync.blank _
  rspFifo := FifoAsync.blank _
  servicer := .reset
  capture := Capture.blank p

/-- A `DRAIN` byte by byte on `xclk`, with `clk` at half the rate. -/
def drainEv (p : Params) (n : ℕ) : TransportEvent p where
  xclk := true
  clk := n % 2 == 0
  rxData := Drain.drainReq.getD n 0
  rxValid := decide (n < 7)
  txReady := true
  probe := 0
  trigExtI := false
  cmdRgraySel := 0
  cmdWgraySel := 0
  rspRgraySel := 0
  rspWgraySel := 0

theorem drainEv_received : (history (blank Drain.widest) (drainEv _) 7).received = Drain.drainReq := by
  decide +kernel

theorem drainEv_served : ∃ m, 7 ≤ m ∧ (run (blank Drain.widest) (drainEv _) m).drain.rxReady = true ∧
    (calls (blank Drain.widest) (drainEv _) m).map Prod.fst = drainOps Drain.widest
      (results (calls (blank Drain.widest) (drainEv _) m)) := by
  obtain ⟨m, hm, hrx, hrec, hops, -⟩ := requests_served (blank Drain.widest) (drainEv _)
    (fun n => ⟨2 * n, by omega, by simp [drainEv]⟩) (fun n => ⟨n, le_rfl, rfl, rfl⟩) 7
  rw [hrec, drainEv_received, Drain.parse_drainReq] at hops
  refine ⟨m, hm, hrx, hops.trans ?_⟩
  rw [answer, respond_drains _ drainRequest_drains]
  exact List.append_nil _

end Transport

end FpgaScope
