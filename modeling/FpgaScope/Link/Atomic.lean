import FpgaScope.Link.Call
import FpgaScope.Link.Fifo

/-! The native bus behind two clock crossings behaves like a procedure call. `Transport`
refines `Link`: the words between the pointers of a FIFO are the queue, and the FIFO's
flags are one way for a queue to decide. So its operations go through the five phases. -/

namespace FpgaScope

open Clocked

namespace Transport

variable {p : Params}

/-! ### What moves in an event -/

section
variable (t : Transport p) (e : TransportEvent p)

/-- The input of the frame engine, at an edge of its clock. -/
def engineIn : Option DrainIn := if e.xclk then some (t.drainIn e) else none

/-- The strobe of an event: its operation and its result. -/
def executed : Option (CsrOp × BitVec 32) :=
  if e.clk && t.servicer.sv == .exec then some (t.servicer.op, t.servicer.result (t.csrRdata e))
  else none

/-- Words that enter and leave the FIFOs. -/
def cmdPushed : Option (BitVec 41) := t.cmdFifo.pushedWord (t.cmdEvent e)

def cmdPopped : Option (BitVec 41) := t.cmdFifo.poppedWord (t.cmdEvent e)

def rspPushed : Option (BitVec 32) := t.rspFifo.pushedWord (t.rspEvent e)

def rspPopped : Option (BitVec 32) := t.rspFifo.poppedWord (t.rspEvent e)

/-- The FIFOs' flags as the decisions of queues. -/
def linkEvent : LinkEvent p where
  xclk := e.xclk
  clk := e.clk
  rxData := e.rxData
  rxValid := e.rxValid
  txReady := e.txReady
  probe := e.probe
  trigExtI := e.trigExtI
  cmdWrReady := t.cmdFifo.wrReady
  cmdRdValid := t.cmdFifo.rdValid
  cmdRdData := t.cmdFifo.rd.rdData
  rspWrReady := t.rspFifo.wrReady
  rspRdValid := t.rspFifo.rdValid
  rspRdData := t.rspFifo.rd.rdData

end

/-! ### The refinement -/

/-- `ℓ` is `t` with queues for FIFOs, after the words `cp` and `rp` were pushed and `cq` and
`rq` popped. -/
structure Refines (t : Transport p) (ℓ : Link p) (cp cq : List (BitVec 41)) (rp rq : List (BitVec 32)) :
    Prop where
  drain : ℓ.drain = t.drain
  servicer : ℓ.servicer = t.servicer
  capture : ℓ.capture = t.capture
  cmdInv : t.cmdFifo.Inv cp cq
  rspInv : t.rspFifo.Inv rp rq
  cmdQ : ℓ.cmdQ = cp.drop cq.length
  rspQ : ℓ.rspQ = rp.drop rq.length

/-- A FIFO shows the oldest word of its queue or none. -/
theorem fifo_shown {q : FifoParams} {f : FifoAsync q} {pushed popped : List (BitVec q.width)}
    (h : f.Inv pushed popped) : (if f.rdValid then (pushed.drop popped.length).head? else none) =
      if f.rdValid then some f.rd.rdData else none := by
  split
  · rename_i hv
    rw [List.head?_drop, h.front hv]
  · rfl

/-- The words between the pointers after an event. -/
theorem fifo_drop {q : FifoParams} {f : FifoAsync q} {pushed popped : List (BitVec q.width)}
    (h : f.Inv pushed popped) (e : FifoEvent q) :
    (pushed ++ (f.pushedWord e).toList).drop (popped ++ (f.poppedWord e).toList).length =
      (pushed.drop popped.length).drop (f.poppedWord e).toList.length ++ (f.pushedWord e).toList := by
  have hle : popped.length + (f.poppedWord e).toList.length ≤ pushed.length := by
    rw [FifoAsync.poppedWord]
    split
    · rename_i hp
      have hv : f.rd.outVld = true := by
        rw [FifoAsync.pop, FifoAsync.rdValid] at hp
        simp only [Bool.and_eq_true] at hp
        exact hp.2.1
      obtain ⟨hlt, -⟩ := List.getElem?_eq_some_iff.mp (h.front hv)
      exact hlt
    · exact h.order.length_le
  rw [List.length_append, List.drop_append_of_le_length hle, List.drop_drop]

namespace Refines

variable {t : Transport p} {ℓ : Link p} {cp cq : List (BitVec 41)} {rp rq : List (BitVec 32)}
  (h : Refines t ℓ cp cq rp rq) (e : TransportEvent p)
include h

theorem cmdShown : ℓ.cmdShown (t.linkEvent e) =
    if t.cmdFifo.rdValid then some t.cmdFifo.rd.rdData else none := by
  rw [Link.cmdShown, h.cmdQ]
  exact fifo_shown h.cmdInv

theorem rspShown : ℓ.rspShown (t.linkEvent e) =
    if t.rspFifo.rdValid then some t.rspFifo.rd.rdData else none := by
  rw [Link.rspShown, h.rspQ]
  exact fifo_shown h.rspInv

theorem drainIn : ℓ.drainIn (t.linkEvent e) = t.drainIn e := by
  rw [Link.drainIn, Transport.drainIn, h.rspShown]
  cases t.rspFifo.rdValid <;> rfl

theorem engineIn : ℓ.engineIn (t.linkEvent e) = t.engineIn e := by
  rw [Link.engineIn, Transport.engineIn, h.drainIn]
  rfl

theorem csrRdata : ℓ.csrRdata (t.linkEvent e) = t.csrRdata e := by
  rw [Link.csrRdata, Transport.csrRdata, Link.captureIn, h.capture, h.servicer]
  rfl

theorem executed : ℓ.executed (t.linkEvent e) = t.executed e := by
  rw [Link.executed, Transport.executed, h.csrRdata, h.servicer]
  rfl

theorem issued : ℓ.issued (t.linkEvent e) = (t.engineIn e).bind t.drain.issued := by
  rw [Link.issued, h.engineIn, h.drain]

theorem latched : ℓ.latched (t.linkEvent e) = (t.engineIn e).bind t.drain.taken := by
  rw [Link.latched, h.engineIn, h.drain]

theorem cmdPushed : ℓ.cmdPushed (t.linkEvent e) = t.cmdPushed e := by
  rw [Link.cmdPushed, h.drain]
  rfl

theorem cmdPopped : ℓ.cmdPopped (t.linkEvent e) = t.cmdPopped e := by
  rw [Link.cmdPopped, h.cmdShown, h.servicer, Transport.cmdPopped, FifoAsync.poppedWord, FifoAsync.pop]
  change (if e.clk && t.servicer.cmdRdReady then _ else _) =
    if e.clk && (t.cmdFifo.rdValid && t.servicer.cmdRdReady) then _ else _
  cases e.clk <;> cases t.servicer.cmdRdReady <;> cases t.cmdFifo.rdValid <;> rfl

theorem rspPushed : ℓ.rspPushed (t.linkEvent e) = t.rspPushed e := by
  rw [Link.rspPushed, h.servicer]
  rfl

theorem rspPopped : ℓ.rspPopped (t.linkEvent e) = t.rspPopped e := by
  rw [Link.rspPopped, h.rspShown, h.drain, Transport.rspPopped, FifoAsync.poppedWord, FifoAsync.pop]
  change (if e.xclk && t.drain.rspReady then _ else _) =
    if e.xclk && (t.rspFifo.rdValid && t.drain.rspReady) then _ else _
  cases e.xclk <;> cases t.drain.rspReady <;> cases t.rspFifo.rdValid <;> rfl

/-- An event of the transport is an event of the link. -/
theorem step : Refines (t.step e) (ℓ.step (t.linkEvent e)) (cp ++ (t.cmdPushed e).toList)
    (cq ++ (t.cmdPopped e).toList) (rp ++ (t.rspPushed e).toList) (rq ++ (t.rspPopped e).toList) where
  drain := by
    rw [Link.step, Transport.step, h.drainIn, h.drain]
    rfl
  servicer := by
    rw [Link.step, Transport.step, h.cmdShown, h.csrRdata, h.servicer]
    dsimp only
    cases t.cmdFifo.rdValid <;> rfl
  capture := by
    rw [Link.step, Transport.step, Link.captureIn, h.capture, h.servicer]
    rfl
  cmdInv := h.cmdInv.step (t.cmdEvent e)
  rspInv := h.rspInv.step (t.rspEvent e)
  cmdQ := by
    rw [Link.step]
    dsimp only
    rw [h.cmdPopped, h.cmdPushed, h.cmdQ]
    exact (fifo_drop h.cmdInv (t.cmdEvent e)).symm
  rspQ := by
    rw [Link.step]
    dsimp only
    rw [h.rspPopped, h.rspPushed, h.rspQ]
    exact (fifo_drop h.rspInv (t.rspEvent e)).symm

end Refines

/-! ### Runs -/

section
variable (t₀ : Transport p) (ev : ℕ → TransportEvent p)

/-- The transport over a sequence of clock edges after a joint reset. -/
def run : ℕ → Transport p := trace step t₀.reset ev

/-- What the frame engine has done before event `n`. -/
def history : ℕ → History
  | 0 => .empty
  | n + 1 => (history n).next (run t₀ ev n).drain ((run t₀ ev n).engineIn (ev n))

/-- The strobes before event `n`, with their results. -/
def calls : ℕ → List (CsrOp × BitVec 32) := collect fun k => executed (run t₀ ev k) (ev k)

/-- Words in and out of the FIFOs before event `n`. -/
def cmdPushedWords : ℕ → List (BitVec 41) := collect fun k => cmdPushed (run t₀ ev k) (ev k)

def cmdPoppedWords : ℕ → List (BitVec 41) := collect fun k => cmdPopped (run t₀ ev k) (ev k)

def rspPushedWords : ℕ → List (BitVec 32) := collect fun k => rspPushed (run t₀ ev k) (ev k)

def rspPoppedWords : ℕ → List (BitVec 32) := collect fun k => rspPopped (run t₀ ev k) (ev k)

/-- The invariant of a run: it refines a link in one of the five phases. -/
structure Linked (n : ℕ) (ℓ : Link p) : Prop where
  refines : Refines (run t₀ ev n) ℓ (cmdPushedWords t₀ ev n) (cmdPoppedWords t₀ ev n)
    (rspPushedWords t₀ ev n) (rspPoppedWords t₀ ev n)
  phase : ℓ.Phase (history t₀ ev n).operations (history t₀ ev n).replies (calls t₀ ev n)
  pushed : cmdPushedWords t₀ ev n = (history t₀ ev n).operations.map CsrOp.pack
  popped : rspPoppedWords t₀ ev n = (history t₀ ev n).replies

theorem linked_run (n : ℕ) : ∃ ℓ, Linked t₀ ev n ℓ := by
  induction n with
  | zero =>
    let ℓ : Link p := { drain := t₀.drain.reset, cmdQ := [], servicer := .reset, rspQ := []
                        capture := t₀.capture.reset }
    exact ⟨ℓ, ⟨rfl, rfl, rfl, .reset _, .reset _, rfl, rfl⟩, .idle rfl rfl rfl rfl rfl, rfl, rfl⟩
  | succ n ih =>
    obtain ⟨ℓ, href, hph, hpush, hpop⟩ := ih
    refine ⟨ℓ.step ((run t₀ ev n).linkEvent (ev n)), href.step (ev n), ?_, ?_, ?_⟩
    · rw [history, History.next_operations, History.next_replies, ← href.issued, ← href.latched]
      change Link.Phase _ _ _ (calls t₀ ev n ++ (executed (run t₀ ev n) (ev n)).toList)
      rw [← href.executed]
      exact hph.step
    · rw [history, History.next_operations, List.map_append, ← hpush, ← href.issued]
      change cmdPushedWords t₀ ev n ++ (cmdPushed (run t₀ ev n) (ev n)).toList = _
      rw [← href.cmdPushed, Link.cmdPushed_eq, Option.toList_map]
    · rw [history, History.next_replies, ← hpop, ← href.latched, Link.latched_eq, href.rspPopped]
      rfl

end

variable {t₀ : Transport p} {ev : ℕ → TransportEvent p} {n : ℕ} {ℓ : Link p}

theorem pushed_split {q : FifoParams} {f : FifoAsync q} {pushed popped : List (BitVec q.width)}
    (h : f.Inv pushed popped) : pushed = popped ++ pushed.drop popped.length := by
  obtain ⟨rest, rfl⟩ := h.order
  rw [List.drop_left]

/-- An empty queue means that everything pushed was popped. -/
theorem popped_eq_pushed {q : FifoParams} {f : FifoAsync q} {pushed popped : List (BitVec q.width)}
    (h : f.Inv pushed popped) (he : pushed.drop popped.length = []) : popped = pushed :=
  h.order.eq_of_length_le (List.drop_eq_nil_iff.mp he)

/-- Words in the response queue are results. -/
theorem Linked.rspPushed_prefix (h : Linked t₀ ev n ℓ) :
    rspPushedWords t₀ ev n <+: (calls t₀ ev n).map Prod.snd := by
  have hsplit : rspPushedWords t₀ ev n = (history t₀ ev n).replies ++ ℓ.rspQ := by
    rw [h.refines.rspQ, ← h.popped]
    exact pushed_split h.refines.rspInv
  rw [hsplit]
  cases h.phase with
  | idle _ _ hr _ hR | sent _ _ _ hr _ hR | exec _ _ _ hr _ hR =>
    rw [hr, List.append_nil, hR]
  | push _ _ _ hr _ _ hR =>
    rw [hr, List.append_nil, ← hR]
    exact List.prefix_append _ _
  | back _ _ _ hr _ hR => rw [hr, hR]

/-- A strobe ends with its edge of `clk`. -/
theorem strobe_ends {t : Transport p} (e : TransportEvent p) (hs : t.servicer.sv = .exec)
    (hk : e.clk = true) : (t.step e).servicer.sv = .push :=
  congrArg Servicer.sv ((if_pos hk).trans (Servicer.step_exec hs _ _ _ _))

/-- The CSR path behaves as an atomic call, for every interleaving of the clocks, every host
and every back-pressure. The strobes are the operations issued, in this order, at most the
last one still to come, and each lasts one cycle. The replies latched are the results of
the strobes, at most the last one still to come. One operation is outstanding at most. The
FIFOs carry exactly these words, and when the engine does not wait all of it is done. -/
theorem csr_call_atomic (t₀ : Transport p) (ev : ℕ → TransportEvent p) (n : ℕ) :
    let H := history t₀ ev n
    let C := calls t₀ ev n
    C.map Prod.fst <+: H.operations ∧ H.replies <+: C.map Prod.snd ∧
    H.operations.length ≤ H.replies.length + 1 ∧
    ((run t₀ ev n).servicer.sv = .exec → (ev n).clk = true →
      (run t₀ ev (n + 1)).servicer.sv ≠ .exec) ∧
    cmdPushedWords t₀ ev n = H.operations.map CsrOp.pack ∧
    cmdPoppedWords t₀ ev n <+: cmdPushedWords t₀ ev n ∧
    rspPushedWords t₀ ev n <+: C.map Prod.snd ∧
    rspPoppedWords t₀ ev n <+: rspPushedWords t₀ ev n ∧ rspPoppedWords t₀ ev n = H.replies ∧
    ((run t₀ ev n).drain.st ≠ .csrWait →
      C.map Prod.fst = H.operations ∧ C.map Prod.snd = H.replies ∧
      cmdPoppedWords t₀ ev n = cmdPushedWords t₀ ev n ∧
      rspPoppedWords t₀ ev n = rspPushedWords t₀ ev n) := by
  intro H C
  obtain ⟨ℓ, h⟩ := linked_run t₀ ev n
  have hlen : C.map Prod.fst <+: H.operations ∧ H.replies <+: C.map Prod.snd ∧
      H.operations.length ≤ H.replies.length + 1 := by
    have hC : ((calls t₀ ev n).map Prod.fst).length = ((calls t₀ ev n).map Prod.snd).length := by
      rw [List.length_map, List.length_map]
    cases h.phase with
    | idle _ _ _ hO hR =>
      rw [hO, hR]
      exact ⟨List.prefix_rfl, List.prefix_rfl, by omega⟩
    | sent _ _ _ _ hO hR | exec _ _ _ _ hO hR =>
      rw [hO, hR, List.length_append]
      exact ⟨List.prefix_append _ _, List.prefix_rfl, by rw [hC]; rfl⟩
    | push _ _ _ _ _ hO hR | back _ _ _ _ hO hR =>
      have hR' := congrArg List.length hR
      rw [List.length_append, List.length_singleton] at hR'
      rw [hO]
      exact ⟨List.prefix_rfl, hR ▸ List.prefix_append _ _, Nat.le_of_eq (hC.trans hR'.symm)⟩
  obtain ⟨hC, hR, hO⟩ := hlen
  refine ⟨hC, hR, hO, fun hs hk => ?_, h.pushed, h.refines.cmdInv.order, h.rspPushed_prefix,
    h.refines.rspInv.order, h.popped, fun hst => ?_⟩
  · rw [show (run t₀ ev (n + 1)).servicer.sv = .push from strobe_ends (ev n) hs hk]
    decide
  · have hw : ℓ.drain.st ≠ .csrWait := by rwa [h.refines.drain]
    cases h.phase with
    | idle hc _ hr hO hR =>
      exact ⟨hO.symm, hR.symm, popped_eq_pushed h.refines.cmdInv (h.refines.cmdQ ▸ hc),
        popped_eq_pushed h.refines.rspInv (h.refines.rspQ ▸ hr)⟩
    | sent hx | exec hx | push hx | back hx => exact absurd hx hw

end Transport

end FpgaScope
