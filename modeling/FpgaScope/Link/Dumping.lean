import FpgaScope.Link.Content

/-! A `DRAIN` over the link while the core is parked. The invariant joins the three parts:
the phase of the call, the flow of the frame engine, and the register file as the strobes
so far have left it. -/

namespace FpgaScope

open Protocol Clocked

/-- The host has asked for one dump at most, and for nothing else. -/
def History.Asks (H : History) : Prop := (parse H.received).1 <+: [drainRequest]

namespace Link

variable {p : Params}

section
variable (ℓ₀ : Link p) (ev : ℕ → LinkEvent p)

/-- The link over a sequence of clock edges. -/
def run : ℕ → Link p := trace step ℓ₀ ev

/-- What the frame engine has done before event `n`. -/
def history : ℕ → History
  | 0 => .empty
  | n + 1 => (history n).next (run ℓ₀ ev n).drain ((run ℓ₀ ev n).engineIn (ev n))

/-- The strobes before event `n`, with their results. -/
def calls : ℕ → List (CsrOp × BitVec 32) := collect fun k => executed (run ℓ₀ ev k) (ev k)

theorem execution : Drain.Execution (fun n => (run ℓ₀ ev n).drain) (history ℓ₀ ev)
    fun n => (run ℓ₀ ev n).engineIn (ev n) where
  idle := fun n hn => by
    refine ⟨?_, by rw [history, hn]; rfl⟩
    cases hx : (ev n).xclk with
    | false => exact if_neg (by rw [hx]; decide)
    | true => rw [engineIn, hx] at hn; cases hn
  edge := fun n i hi => by
    refine ⟨?_, by rw [history, hi]; rfl⟩
    cases hx : (ev n).xclk with
    | false => rw [engineIn, hx] at hi; cases hi
    | true =>
      rw [engineIn, hx] at hi
      obtain rfl := Option.some.inj hi
      exact if_pos hx

end

/-- Nothing is under way: the engine hunts and the queues are empty. -/
structure Quiet (ℓ : Link p) : Prop where
  hunt : ℓ.drain.st = .hunt
  cmdQ : ℓ.cmdQ = []
  idle : ℓ.servicer.sv = .idle
  rspQ : ℓ.rspQ = []

variable {ℓ₀ : Link p} {ev : ℕ → LinkEvent p}

theorem phase_run (h₀ : ℓ₀.Quiet) (n : ℕ) : (run ℓ₀ ev n).Phase (history ℓ₀ ev n).operations
    (history ℓ₀ ev n).replies (calls ℓ₀ ev n) := by
  induction n with
  | zero => exact .idle h₀.cmdQ h₀.idle h₀.rspQ rfl rfl
  | succ n ih =>
    rw [history, History.next_operations, History.next_replies]
    exact ih.step

/-! ### The invariant -/

variable {ℓ : Link p} {e : LinkEvent p} {H : History} {C : List (CsrOp × BitVec 32)} {c₀ : Capture p}

/-- Before a strobe the read registers hold what is addressed. -/
structure Loaded (c : Capture p) : Prop where
  buf : c.core.uBuf.rdData = c.core.uBuf.mem c.csr.drainAddr
  winMeta : c.core.uWinMeta.rdData = c.core.uWinMeta.mem c.csr.winSelQ

/-- A `DRAIN` that started from `c₀`, after the history `H` and the strobes `C`. -/
structure Dumping (c₀ : Capture p) (ℓ : Link p) (H : History) (C : List (CsrOp × BitVec 32)) : Prop where
  phase : ℓ.Phase H.operations H.replies C
  serves : Drain.Serves c₀.drainReply ℓ.drain H
  told : C.map Prod.snd = (List.range C.length).map c₀.drainReply
  view : Csr.View c₀ C.length ℓ.capture.csr
  loaded : ℓ.servicer.sv = .exec → Loaded ℓ.capture

/-- The strobe of an event, if there is one. -/
theorem executed_cases (ℓ : Link p) (e : LinkEvent p) :
    (ℓ.executed e = none ∧ (e.clk = true → ℓ.servicer.sv ≠ .exec)) ∨
    (e.clk = true ∧ ℓ.servicer.sv = .exec ∧
      ℓ.executed e = some (ℓ.servicer.op, ℓ.servicer.result (ℓ.csrRdata e))) := by
  unfold executed
  by_cases h : e.clk = true ∧ ℓ.servicer.sv = .exec
  · rw [h.1, h.2]
    exact Or.inr ⟨rfl, rfl, rfl⟩
  · rw [if_neg (by simpa using h)]
    exact Or.inl ⟨rfl, fun hk hs => h ⟨hk, hs⟩⟩

theorem step_capture (ℓ : Link p) (e : LinkEvent p) :
    (ℓ.step e).capture = if e.clk then ℓ.capture.step (ℓ.captureIn e) else ℓ.capture := rfl

/-- Without a strobe the bus is silent. -/
theorem bus_quiet (h : ℓ.servicer.sv ≠ .exec) :
    ℓ.servicer.bus.write = false ∧ ℓ.servicer.bus.read = false := by
  have hb : (ℓ.servicer.sv == .exec) = false := beq_eq_false_iff_ne.mpr h
  rw [Servicer.bus, hb]
  exact ⟨rfl, rfl⟩

/-- In a strobe the bus carries the operation. -/
theorem bus_strobe (h : ℓ.servicer.sv = .exec) : ℓ.servicer.bus = Csr.strobe ℓ.servicer.op := by
  rw [Servicer.bus, h]
  rfl

/-- The servicer is loaded at an edge without a strobe, when the addresses stand still. -/
theorem loaded_step (hl : ℓ.servicer.sv = .exec → Loaded ℓ.capture)
    (hno : e.clk = true → ℓ.servicer.sv ≠ .exec) (hbuf : (ℓ.step e).capture.core.uBuf.mem = ℓ.capture.core.uBuf.mem)
    (hmeta : (ℓ.step e).capture.core.uWinMeta.mem = ℓ.capture.core.uWinMeta.mem)
    (hs : (ℓ.step e).servicer.sv = .exec) : Loaded (ℓ.step e).capture := by
  rw [step_servicer] at hs
  rw [step_capture] at hbuf hmeta ⊢
  cases hk : e.clk with
  | false =>
    rw [hk] at hs
    exact hl hs
  | true =>
    rw [hk, if_pos rfl] at hbuf hmeta
    obtain ⟨hw, hr⟩ := bus_quiet (hno hk)
    have hb : Csr.Harmless ℓ.servicer.bus := fun hx => by rw [hw] at hx; cases hx
    obtain ⟨-, -, hsel, hptr⟩ := hb.step (c := ℓ.capture.csr) ℓ.capture.core
    have hreset : ℓ.servicer.bus.bufReset = false := by rw [CsrBus.bufReset, hw]; rfl
    have hpop : ℓ.servicer.bus.pop = false := by rw [CsrBus.pop, hr]; rfl
    rw [hw, if_neg (by simp)] at hsel
    rw [hreset, hpop] at hptr
    have haddr := (Prod.mk.inj hptr).1
    obtain ⟨hrd, hrm⟩ := ℓ.capture.core.step_reads (ℓ.capture.coreIn (ℓ.captureIn e))
    rw [if_pos rfl]
    refine ⟨?_, ?_⟩
    · rw [hbuf]
      exact hrd.trans (congrArg ℓ.capture.core.uBuf.mem haddr.symm)
    · rw [hmeta]
      exact hrm.trans (congrArg ℓ.capture.core.uWinMeta.mem hsel.symm)

namespace Dumping

/-- Replies latched are replies told. -/
theorem agrees (hph : ℓ.Phase H.operations H.replies C)
    (ht : C.map Prod.snd = (List.range C.length).map c₀.drainReply) : H.Agrees c₀.drainReply := by
  have hpre : H.replies <+: (List.range C.length).map c₀.drainReply := by
    rw [← ht]
    cases hph with
    | idle _ _ _ _ hR | sent _ _ _ _ _ hR | exec _ _ _ _ _ hR => rw [hR]
    | push _ _ _ _ _ _ hR | back _ _ _ _ _ hR => exact hR ▸ List.prefix_append _ _
  obtain ⟨t, ht⟩ := hpre
  intro k x hx
  obtain ⟨hlt, -⟩ := List.getElem?_eq_some_iff.mp hx
  have hk : ((List.range C.length).map c₀.drainReply)[k]? = some x := by
    rw [← ht, List.getElem?_append_left hlt, hx]
  rw [List.getElem?_map, Option.map_eq_some_iff] at hk
  obtain ⟨k', hk', rfl⟩ := hk
  obtain ⟨hlt', rfl⟩ := List.getElem?_eq_some_iff.mp hk'
  rw [List.getElem_range]

/-- While the request comes in or is answered, at most the operations of a `DRAIN` are due. -/
theorem due_ops {ρ : ℕ → BitVec 32} (h : H.Asks) :
    (H.due p ρ).ops = [] ∨ (H.due p ρ).ops = drainOps p ρ := by
  rw [History.due]
  rcases List.prefix_cons_iff.mp h with hnil | ⟨l, hl, hpre⟩
  · rw [hnil]
    exact Or.inl rfl
  · rw [hl, List.prefix_nil.mp hpre]
    right
    simp only [answer, respond_drains ρ drainRequest_drains, List.append_nil]
    rfl

/-- The operation about to be executed. -/
theorem op_at (h : Dumping c₀ ℓ H C) (hreq : H.Asks)
    (hs : ℓ.servicer.sv = .exec) : (drainOps p c₀.drainReply)[C.length]? = some ℓ.servicer.op := by
  have hO : H.operations = C.map Prod.fst ++ [ℓ.servicer.op] := by
    cases h.phase with
    | exec _ _ _ _ hO => exact hO
    | idle _ hx | sent _ _ hx | push _ _ hx | back _ _ hx => rw [hs] at hx; cases hx
  obtain ⟨t, ht⟩ := h.serves.operations_prefix
  have hget : H.operations[C.length]? = some ℓ.servicer.op := by
    rw [hO, List.getElem?_append_right (by rw [List.length_map]), List.length_map, Nat.sub_self]
    rfl
  obtain ⟨hlt, -⟩ := List.getElem?_eq_some_iff.mp hget
  have hdue : (H.due p c₀.drainReply).ops[C.length]? = some ℓ.servicer.op := by
    rw [← ht, List.getElem?_append_left hlt, hget]
  rcases due_ops (p := p) (ρ := c₀.drainReply) hreq with hnil | hall
  · rw [hnil] at hdue
    cases hdue
  · rwa [hall] at hdue

/-- An event without a strobe. -/
theorem view_quiet (h : Dumping c₀ ℓ H C) (hno : e.clk = true → ℓ.servicer.sv ≠ .exec) :
    Csr.View c₀ C.length (ℓ.step e).capture.csr := by
  rw [step_capture]
  cases hk : e.clk with
  | false => exact h.view
  | true =>
    obtain ⟨hw, hr⟩ := bus_quiet (hno hk)
    exact h.view.quiet hw hr ℓ.capture.core

/-- A strobe tells the reply of its operation. -/
theorem view_strobe (h : Dumping c₀ ℓ H C) (hpark : c₀.core.Parked ℓ.capture.core)
    (hreq : H.Asks) (hk : e.clk = true) (hs : ℓ.servicer.sv = .exec) :
    ℓ.servicer.result (ℓ.csrRdata e) = c₀.drainReply C.length ∧
      Csr.View c₀ (C.length + 1) (ℓ.step e).capture.csr := by
  obtain ⟨hbuf, hmeta⟩ := h.loaded hs
  obtain ⟨hres, hview⟩ := h.view.strobe hpark hbuf hmeta (h.op_at hreq hs)
  have hb := bus_strobe hs
  refine ⟨?_, ?_⟩
  · rw [← hres, ← hb]
    rfl
  · rw [step_capture, hk, if_pos rfl]
    change Csr.View c₀ _ (ℓ.capture.csr.step ℓ.servicer.bus ℓ.capture.core)
    rw [hb]
    exact hview

theorem step (h : Dumping c₀ ℓ H C) (hpark : c₀.core.Parked ℓ.capture.core)
    (hpark' : c₀.core.Parked (ℓ.step e).capture.core) (hreq : H.Asks) :
    Dumping c₀ (ℓ.step e) (H.next ℓ.drain (ℓ.engineIn e)) (C ++ (ℓ.executed e).toList) := by
  have hphase : (ℓ.step e).Phase (H.next ℓ.drain (ℓ.engineIn e)).operations
      (H.next ℓ.drain (ℓ.engineIn e)).replies (C ++ (ℓ.executed e).toList) := by
    rw [History.next_operations, History.next_replies]
    exact h.phase.step
  have hstrobe : (C ++ (ℓ.executed e).toList).map Prod.snd =
        (List.range (C ++ (ℓ.executed e).toList).length).map c₀.drainReply ∧
      Csr.View c₀ (C ++ (ℓ.executed e).toList).length (ℓ.step e).capture.csr ∧
      ((ℓ.step e).servicer.sv = .exec → Loaded (ℓ.step e).capture) := by
    rcases executed_cases ℓ e with ⟨hnone, hno⟩ | ⟨hk, hs, hsome⟩
    · rw [hnone, Option.toList_none, List.append_nil]
      exact ⟨h.told, h.view_quiet hno, loaded_step h.loaded hno (hpark'.buf.trans hpark.buf.symm)
        (hpark'.winMeta.trans hpark.winMeta.symm)⟩
    · obtain ⟨hres, hview⟩ := h.view_strobe hpark hreq hk hs
      rw [hsome, hres, Option.toList_some, List.length_append, List.length_singleton, List.range_succ,
        List.map_append, List.map_append, h.told]
      refine ⟨rfl, hview, fun hx => ?_⟩
      rw [step_servicer, hk, if_pos rfl, Servicer.step_exec hs] at hx
      cases hx
  obtain ⟨htold, hview, hload⟩ := hstrobe
  refine ⟨hphase, ?_, htold, hview, hload⟩
  have hagree := agrees hphase htold
  cases hx : e.xclk with
  | false =>
    have hi : ℓ.engineIn e = none := by rw [engineIn, hx]; rfl
    have hd : (ℓ.step e).drain = ℓ.drain := if_neg (by rw [hx]; decide)
    rw [hi, hd]
    exact h.serves
  | true =>
    have hi : ℓ.engineIn e = some (ℓ.drainIn e) := by rw [engineIn, hx]; rfl
    have hd : (ℓ.step e).drain = ℓ.drain.step (ℓ.drainIn e) := if_pos hx
    rw [hi] at hagree ⊢
    rw [hd]
    exact h.serves.step hagree

end Dumping

end Link

end FpgaScope
