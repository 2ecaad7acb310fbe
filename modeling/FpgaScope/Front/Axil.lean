import FpgaScope.Capture.BufData
import FpgaScope.Lib.Queue
import FpgaScope.Rtl.Axil
import FpgaScope.Rtl.Drain

/-! The AXI4-Lite slave makes one transaction after the other of whatever the master drives.
The transaction of a strobe, its response included, waits in a queue of one place until the
master takes the response; no strobe comes while it waits. So two strobes are never in
consecutive cycles, and `BUF_DATA` read over AXI is the buffer in order. -/

namespace FpgaScope

open Clocked

/-- The response of a transaction. -/
inductive Beat
  | b (bresp : BitVec 2)
  | r (rdata : BitVec 32) (rresp : BitVec 2)

namespace Axil

/-- The response that a strobe is to have. -/
def answer (o : CsrOp) (csrRdata : BitVec 32) : Beat :=
  if o.write then .b respOkay else .r csrRdata respOkay

section
variable (a : Axil) (i : AxiMaster)

/-- The strobe on the native bus. -/
def strobe : Option CsrOp :=
  if (a.bus i).write then some (.wr (a.bus i).addr (a.bus i).wdata)
  else if (a.bus i).read then some (.rd (a.bus i).addr)
  else none

/-- The transaction accepted from the master: `AW` with `W`, or `AR`. -/
def accepted : Option CsrOp :=
  if (i.awvalid && a.awready i) && (i.wvalid && a.wready i) then
    some (.wr (i.awaddr.extractLsb' 2 8) i.wdata)
  else if i.arvalid && a.arready i then some (.rd (i.araddr.extractLsb' 2 8))
  else none

/-- The response the master takes. -/
def beat : Option Beat :=
  if a.bvalid && i.bready then some (.b a.bresp)
  else if a.rvalid && i.rready then some (.r a.rdata a.rresp)
  else none

/-- `AW` and `W` are accepted in the same cycle. -/
theorem joint_accept : (i.awvalid && a.awready i) = (i.wvalid && a.wready i) := by
  rw [awready, wready, doWrite]
  cases i.awvalid <;> cases i.wvalid <;> simp

theorem strobe_eq_accepted : a.strobe i = a.accepted i := by
  rw [strobe, accepted, joint_accept, Bool.and_self, bus, wready, arready]
  have hwrite : (i.wvalid && a.doWrite i) = a.doWrite i := by
    rw [doWrite]
    cases i.wvalid <;> simp
  have hread : (i.arvalid && a.doRead i) = a.doRead i := by
    rw [doRead]
    cases i.arvalid <;> simp
  rw [hwrite, hread]
  cases hw : a.doWrite i <;> simp

theorem strobe_none (h : a.st ≠ .idle) : a.strobe i = none := by
  have hwrite : a.doWrite i = false := by simp [doWrite, h]
  have hread : a.doRead i = false := by simp [doRead, h]
  rw [strobe, bus, hwrite, hread]
  rfl

end

/-! ### A run of the slave -/

section
variable (master : ℕ → AxiMaster) (csrRdata : ℕ → BitVec 32)

/-- A run from reset; `csrRdata` is what the bus answers in each cycle. -/
def run : ℕ → Axil := trace (fun a x => a.step x.1 x.2) reset fun n => (master n, csrRdata n)

/-- The transaction that the strobe of a cycle begins. -/
def begun (n : ℕ) : Option (CsrOp × Beat) :=
  ((run master csrRdata n).strobe (master n)).map fun o => (o, answer o (csrRdata n))

/-- The last transaction accepted. -/
def lastOp : ℕ → CsrOp := latest (.rd 0) fun n => (run master csrRdata n).accepted (master n)

/-- The transaction whose response the master takes. -/
def completed (n : ℕ) : Option (CsrOp × Beat) :=
  ((run master csrRdata n).beat (master n)).map fun b => (lastOp master csrRdata n, b)

/-- The transaction whose response waits to be taken. -/
def inFlight (n : ℕ) : List (CsrOp × Beat) :=
  match (run master csrRdata n).st with
  | .idle => []
  | .wresp => [(lastOp master csrRdata n, .b respOkay)]
  | .rresp => [(lastOp master csrRdata n, .r (run master csrRdata n).rdataQ respOkay)]

variable {master : ℕ → AxiMaster} {csrRdata : ℕ → BitVec 32}

theorem lastOp_succ (n : ℕ) : lastOp master csrRdata (n + 1) =
    ((run master csrRdata n).strobe (master n)).getD (lastOp master csrRdata n) := by
  rw [strobe_eq_accepted]
  exact latest_succ _ _ n

theorem inFlight_step (n : ℕ) : inFlight master csrRdata (n + 1) = Queue.next (inFlight master csrRdata n)
    (begun master csrRdata n) ((run master csrRdata n).beat (master n)).isSome := by
  have hrun : run master csrRdata (n + 1) = (run master csrRdata n).step (master n) (csrRdata n) := rfl
  rw [inFlight, hrun, lastOp_succ, begun, inFlight, Queue.next, step]
  generalize run master csrRdata n = a
  generalize master n = i
  cases hst : a.st with
  | idle =>
    have hbeat : a.beat i = none := by simp [beat, bvalid, rvalid, hst]
    rw [hbeat, strobe, bus]
    cases hw : a.doWrite i with
    | true => simp [answer, CsrOp.wr]
    | false => cases hr : a.doRead i <;> simp [hst, answer, CsrOp.rd]
  | wresp =>
    rw [strobe_none a i (by rw [hst]; decide)]
    cases hb : i.bready <;> simp [beat, bvalid, rvalid, hst, hb]
  | rresp =>
    rw [strobe_none a i (by rw [hst]; decide)]
    cases hb : i.rready <;> simp [beat, bvalid, rvalid, hst, hb]

theorem inFlight_nonempty {n : ℕ} (h : ((run master csrRdata n).beat (master n)).isSome = true) :
    inFlight master csrRdata n ≠ [] := by
  rw [inFlight]
  cases hst : (run master csrRdata n).st with
  | idle => simp [beat, bvalid, rvalid, hst] at h
  | wresp | rresp => exact List.cons_ne_nil _ _

/-- The response taken is the one in flight. -/
theorem completed_eq (n : ℕ) : completed master csrRdata n =
    Queue.taken (inFlight master csrRdata n) ((run master csrRdata n).beat (master n)).isSome := by
  rw [completed, inFlight, Queue.taken]
  generalize run master csrRdata n = a
  cases hst : a.st with
  | idle => simp [beat, bvalid, rvalid, hst]
  | wresp => cases hb : (master n).bready <;> simp [beat, bvalid, rvalid, hst, hb, bresp]
  | rresp => cases hb : (master n).rready <;> simp [beat, bvalid, rvalid, hst, hb, rdata, rresp]

/-- Every transaction begun is completed, or is the one in flight. -/
theorem begun_conserved (master : ℕ → AxiMaster) (csrRdata : ℕ → BitVec 32) (n : ℕ) :
    collect (completed master csrRdata) n ++ inFlight master csrRdata n = collect (begun master csrRdata) n := by
  rw [show completed master csrRdata = _ from funext completed_eq]
  exact Queue.conserved_of_step _ _ _ rfl inFlight_step (fun _ h => inFlight_nonempty h) n

/-- A strobe finds no transaction in flight. -/
theorem inFlight_of_strobe {n : ℕ} (h : (run master csrRdata n).strobe (master n) ≠ none) :
    inFlight master csrRdata n = [] := by
  rw [inFlight]
  cases hst : (run master csrRdata n).st with
  | idle => rfl
  | wresp | rresp => exact absurd (strobe_none _ _ (by rw [hst]; decide)) h

/-- A master that keeps taking responses gets them all. -/
theorem begun_completes (hb : Recurs fun n => (master n).bready = true)
    (hr : Recurs fun n => (master n).rready = true) (n : ℕ) :
    ∃ m, n ≤ m ∧ collect (begun master csrRdata) n <+: collect (completed master csrRdata) m := by
  have hdone : ∀ m, n ≤ m → inFlight master csrRdata m = [] →
      collect (begun master csrRdata) n <+: collect (completed master csrRdata) m := fun m hm hnil => by
    have hcons := begun_conserved master csrRdata m
    rw [hnil, List.append_nil] at hcons
    rw [hcons]
    exact collect_mono _ hm
  have hrun : ∀ k, run master csrRdata (k + 1) = (run master csrRdata k).step (master k) (csrRdata k) :=
    fun _ => rfl
  cases hst : (run master csrRdata n).st with
  | idle => exact ⟨n, le_rfl, hdone n le_rfl (by rw [inFlight, hst])⟩
  | wresp =>
    obtain ⟨m, hm, hready, hm'⟩ := hb.reaches (Q := fun k => (run master csrRdata k).st = .wresp) hst
      fun k _ hno hk => by rw [hrun, step, hk]; simp [hno, hk]
    refine ⟨m + 1, by omega, hdone (m + 1) (by omega) ?_⟩
    rw [inFlight, hrun, step, hm']
    simp [hready]
  | rresp =>
    obtain ⟨m, hm, hready, hm'⟩ := hr.reaches (Q := fun k => (run master csrRdata k).st = .rresp) hst
      fun k _ hno hk => by rw [hrun, step, hk]; simp [hno, hk]
    refine ⟨m + 1, by omega, hdone (m + 1) (by omega) ?_⟩
    rw [inFlight, hrun, step, hm']
    simp [hready]

/-- Strobes are never in consecutive cycles. -/
theorem strobe_spaced {n : ℕ} (h : (run master csrRdata n).strobe (master n) ≠ none) :
    (run master csrRdata (n + 1)).strobe (master (n + 1)) = none := by
  refine strobe_none _ _ ?_
  change ((run master csrRdata n).step (master n) (csrRdata n)).st ≠ .idle
  have hidle : (run master csrRdata n).st = .idle := by
    by_contra hne
    exact h (strobe_none _ _ hne)
  rw [step, hidle]
  dsimp only
  cases hw : (run master csrRdata n).doWrite (master n) with
  | true => simp
  | false =>
    cases hr : (run master csrRdata n).doRead (master n) with
    | true => simp
    | false =>
      refine absurd ?_ h
      rw [strobe, bus, hw, hr]
      rfl

end

/-- Transactions are made one after the other, whatever the master does. Every `AW` is
accepted with its `W`; strobes and accepted transactions are the same, cycle by cycle; each is
answered once, in order, a read with `csr_rdata` of its strobe; none begins before those
before it are answered; and to a master that keeps taking responses all are. -/
structure Serial (master : ℕ → AxiMaster) (csrRdata : ℕ → BitVec 32) : Prop where
  joint : ∀ n, ((master n).awvalid && (run master csrRdata n).awready (master n)) =
    ((master n).wvalid && (run master csrRdata n).wready (master n))
  strobes : ∀ n, (run master csrRdata n).strobe (master n) = (run master csrRdata n).accepted (master n)
  answered : ∀ n, collect (completed master csrRdata) n ++ inFlight master csrRdata n =
    collect (begun master csrRdata) n
  alone : ∀ n, (run master csrRdata n).strobe (master n) ≠ none →
    collect (completed master csrRdata) n = collect (begun master csrRdata) n
  completes : (Recurs fun n => (master n).bready = true) → (Recurs fun n => (master n).rready = true) →
    ∀ n, ∃ m, n ≤ m ∧ collect (begun master csrRdata) n <+: collect (completed master csrRdata) m

theorem serial (master : ℕ → AxiMaster) (csrRdata : ℕ → BitVec 32) : Serial master csrRdata where
  joint := fun _ => joint_accept _ _
  strobes := fun _ => strobe_eq_accepted _ _
  answered := begun_conserved master csrRdata
  alone := fun n h => by
    have hcons := begun_conserved master csrRdata n
    rwa [inFlight_of_strobe h, List.append_nil] at hcons
  completes := begun_completes

end Axil

/-! ### Reading the buffer over AXI -/

namespace AxilTop

open Axil

variable {p : Params}

section
variable (t₀ : AxilTop p) (inp : ℕ → AxilTopIn p)

/-- A run of slave and capture domain from reset. -/
def run : ℕ → AxilTop p := trace step t₀.reset inp

def master (n : ℕ) : AxiMaster := (inp n).master

/-- `csr_rdata` in each cycle. -/
def rdataAt (n : ℕ) : BitVec 32 := (run t₀ inp n).csrRdata (inp n)

/-- What the capture domain sees in each cycle. -/
def captureInp (n : ℕ) : CaptureIn p := (run t₀ inp n).captureIn (inp n)

theorem axil_run (n : ℕ) : (run t₀ inp n).axil = Axil.run (master inp) (rdataAt t₀ inp) n :=
  trace_component step (fun (a : Axil) (x : AxiMaster × BitVec 32) => a.step x.1 x.2) t₀.reset inp axil
    (fun t i => (i.master, t.csrRdata i)) (fun _ _ => rfl) n

theorem capture_run (n : ℕ) : (run t₀ inp n).capture = Capture.run t₀.capture (captureInp t₀ inp) n :=
  trace_component step Capture.step t₀.reset inp capture captureIn (fun _ _ => rfl) n

/-- The lane that a transaction reads from `BUF_DATA`. -/
def lane (x : CsrOp × Beat) : Option (BitVec 32) :=
  match x.2 with
  | .b _ => none
  | .r data _ => if x.1 = .rd csrBufData then some data else none

/-- The data of the `R` beat of a `BUF_DATA` read. -/
def laneBeat (n : ℕ) : Option (BitVec 32) := (completed (master inp) (rdataAt t₀ inp) n).bind lane

/-- From a write of `BUF_CTRL` accepted in cycle `t`, or a soft reset, up to cycle `n`: no
other reset of the drain pointer, and the buffer frozen. -/
structure Drains (t n : ℕ) : Prop where
  rewind : ((captureInp t₀ inp t).bus.softRst || (captureInp t₀ inp t).bus.bufReset) = true
  kept : ∀ v, t < v → v < n → (captureInp t₀ inp v).bus.softRst = false ∧
    (captureInp t₀ inp v).bus.bufReset = false
  frozen : ∀ v, t < v → v ≤ n →
    (run t₀ inp v).capture.core.uBuf.mem = (run t₀ inp n).capture.core.uBuf.mem

end

variable {t₀ : AxilTop p} {inp : ℕ → AxilTopIn p}

theorem bus_run (n : ℕ) : (captureInp t₀ inp n).bus =
    (Axil.run (master inp) (rdataAt t₀ inp) n).bus (master inp n) := by
  rw [← axil_run]
  rfl

theorem strobe_of_pop {n : ℕ} (h : (captureInp t₀ inp n).bus.pop = true) :
    (Axil.run (master inp) (rdataAt t₀ inp) n).strobe (master inp n) = some (.rd csrBufData) := by
  rw [CsrBus.pop, bus_run, Bool.and_eq_true, beq_iff_eq] at h
  have hwrite : ((Axil.run (master inp) (rdataAt t₀ inp) n).bus (master inp n)).write = false := by
    have hr := h.1
    simp only [bus, doRead, Bool.and_eq_true, Bool.not_eq_true'] at hr ⊢
    exact hr.1.2
  rw [strobe, hwrite, if_neg (by decide), if_pos h.1, h.2]

/-- The reads of `BUF_DATA` that begin are the pops. -/
theorem begun_lane (n : ℕ) : (begun (master inp) (rdataAt t₀ inp) n).bind lane =
    Capture.popped t₀.capture (captureInp t₀ inp) n := by
  rw [begun, Capture.popped]
  cases hpop : (captureInp t₀ inp n).bus.pop with
  | true =>
    rw [strobe_of_pop hpop, if_pos rfl, ← capture_run]
    rfl
  | false =>
    rw [if_neg (by decide)]
    cases hs : (Axil.run (master inp) (rdataAt t₀ inp) n).strobe (master inp n) with
    | none => rfl
    | some o =>
      rw [CsrBus.pop, bus_run] at hpop
      rw [strobe] at hs
      split at hs
      · obtain rfl := Option.some.inj hs
        rfl
      · split at hs
        · rename_i hread
          obtain rfl := Option.some.inj hs
          rw [hread, Bool.true_and, beq_eq_false_iff_ne] at hpop
          exact if_neg fun h => hpop (congrArg CsrOp.addr h)
        · cases hs

/-- The lanes read since the pointer was reset are those popped, up to one in flight. -/
theorem laneBeats_prefix {t : ℕ} (h : (Axil.run (master inp) (rdataAt t₀ inp) t).strobe (master inp t) ≠ none)
    (hw : (captureInp t₀ inp t).bus.pop = false) (m : ℕ) :
    collect (fun v => laneBeat t₀ inp (t + 1 + v)) m <+:
      collect (fun v => Capture.popped t₀.capture (captureInp t₀ inp) (t + 1 + v)) m := by
  have hlanes : ∀ n, collect (laneBeat t₀ inp) n ++
      (inFlight (master inp) (rdataAt t₀ inp) n).filterMap lane =
        collect (Capture.popped t₀.capture (captureInp t₀ inp)) n := fun n => by
    have hcons := congrArg (List.filterMap lane) (begun_conserved (master inp) (rdataAt t₀ inp) n)
    rw [List.filterMap_append, collect_filterMap, collect_filterMap] at hcons
    rw [show Capture.popped t₀.capture (captureInp t₀ inp) = _ from funext fun k => (begun_lane k).symm]
    exact hcons
  have hpop : Capture.popped t₀.capture (captureInp t₀ inp) t = none := if_neg (by rw [hw]; decide)
  have hidle : laneBeat t₀ inp t = none := by
    rw [laneBeat, completed_eq, inFlight_of_strobe h, Queue.taken]
    split <;> rfl
  have hstart := hlanes t
  rw [inFlight_of_strobe h, List.filterMap_nil, List.append_nil] at hstart
  have hend := hlanes (t + 1 + m)
  rw [collect_add, collect_none hidle, hstart, collect_add _ (t + 1) m, collect_none hpop, List.append_assoc,
    List.append_right_inj] at hend
  exact ⟨_, hend⟩

theorem lanes_in_order {t n : ℕ} (h : Drains t₀ inp t (t + 1 + n)) {k : ℕ} {x : BitVec 32}
    (hx : (collect (fun v => laneBeat t₀ inp (t + 1 + v)) n)[k]? = some x) :
    x = Capture.laneAt (run t₀ inp (t + 1 + n)).capture.core k := by
  have hwrite : (captureInp t₀ inp t).bus.write = true := by
    have hr := h.rewind
    rw [CsrBus.softRst, CsrBus.wrCtrl, CsrBus.bufReset] at hr
    cases hw : (captureInp t₀ inp t).bus.write with
    | true => rfl
    | false => simp [hw] at hr
  rw [bus_run] at hwrite
  have hstrobe : (Axil.run (master inp) (rdataAt t₀ inp) t).strobe (master inp t) ≠ none := by
    rw [strobe, if_pos hwrite]
    exact Option.some_ne_none _
  have hnopop : ∀ v, (Axil.run (master inp) (rdataAt t₀ inp) v).strobe (master inp v) = none →
      (captureInp t₀ inp v).bus.pop = false := fun v hv => by
    by_contra hne
    rw [strobe_of_pop (by simpa using hne)] at hv
    cases hv
  have hpop : (captureInp t₀ inp t).bus.pop = false := by
    by_contra hne
    have hs : (Axil.run (master inp) (rdataAt t₀ inp) t).strobe (master inp t) = some (.rd csrBufData) :=
      strobe_of_pop (by simpa using hne)
    rw [strobe, if_pos hwrite] at hs
    have hkind : true = false := congrArg CsrOp.write (Option.some.inj hs)
    cases hkind
  have hdrain : Capture.Draining t₀.capture (captureInp t₀ inp) t (t + 1 + n) := by
    refine ⟨h.rewind, h.kept, fun v h₁ h₂ => ?_⟩
    rw [← capture_run, ← capture_run]
    exact h.frozen v h₁ h₂
  obtain ⟨-, hget⟩ := Capture.spaced_pops hdrain (hnopop _ (strobe_spaced hstrobe)) (fun v hv =>
    hnopop _ (strobe_spaced (by rw [strobe_of_pop hv]; exact Option.some_ne_none _))) n le_rfl
  obtain ⟨rest, hrest⟩ := laneBeats_prefix hstrobe hpop n
  obtain ⟨hlt, -⟩ := List.getElem?_eq_some_iff.mp hx
  rw [capture_run]
  exact hget k x (by rw [← hrest, List.getElem?_append_left hlt, hx])

/-- `scope_axil` linearises transactions, for every behaviour of the master and of the bus
behind it. In front of the register file, the `k`-th `R` beat of a `BUF_DATA` read since the
pointer was reset carries lane `k`, while the buffer is frozen. -/
theorem axil_linearised :
    (∀ (master : ℕ → AxiMaster) (csrRdata : ℕ → BitVec 32), Serial master csrRdata) ∧
    ∀ (p : Params) (t₀ : AxilTop p) (inp : ℕ → AxilTopIn p) (t n : ℕ), Drains t₀ inp t (t + 1 + n) →
      ∀ k x, (collect (fun v => laneBeat t₀ inp (t + 1 + v)) n)[k]? = some x →
        x = Capture.laneAt (run t₀ inp (t + 1 + n)).capture.core k :=
  ⟨serial, fun _ _ _ _ _ h _ _ hx => lanes_in_order h hx⟩

/-- The slave before the buffer whose word `a` holds the low bit of `a`. -/
def parityTop : AxilTop oneBit where
  axil := .reset
  capture := Capture.parityMem

/-- `BUF_CTRL` in cycle 0, then `BUF_DATA` as fast as the slave goes. -/
def fastReads (n : ℕ) : AxilTopIn oneBit where
  master :=
    { awaddr := 0x180
      awvalid := n = 0
      wdata := 1
      wstrb := 0xF
      wvalid := n = 0
      bready := true
      araddr := 0x184
      arvalid := true
      rready := true }
  probe := 0
  trigExtI := false

theorem fastReads_quiet {n : ℕ} (hn : 0 < n) : (captureInp parityTop fastReads n).bus.write = false := by
  change (_ && decide (n = 0) && decide (n = 0)) = false
  rw [decide_eq_false (by omega), Bool.and_false]

/-- Nothing arms the core. -/
theorem fastReads_rests (n : ℕ) : (run parityTop fastReads n).capture.core.Rests ∧
    (run parityTop fastReads n).capture.core.uBuf.mem = Capture.parityMem.core.uBuf.mem := by
  induction n with
  | zero => exact ⟨Or.inl rfl, rfl⟩
  | succ n ih =>
    have harm : (captureInp parityTop fastReads n).bus.arm = false := by
      rcases Nat.eq_zero_or_pos n with rfl | hn
      · decide
      · rw [CsrBus.arm, CsrBus.wrCtrl, fastReads_quiet hn, Bool.false_and, Bool.false_and]
    have hno : (run parityTop fastReads n).capture.core.armAccept
        ((run parityTop fastReads n).capture.coreIn (captureInp parityTop fastReads n)) = false := by
      rw [Core.armAccept, show CoreIn.arm _ = false from harm, Bool.false_and, Bool.false_and]
    obtain ⟨hr, hf⟩ := ih.1.frozen hno
    exact ⟨hr, hf.buf.trans ih.2⟩

theorem fastReads_drains : Drains parityTop fastReads 0 (0 + 1 + 5) where
  rewind := by decide
  kept := fun v hv _ => by
    rw [CsrBus.softRst, CsrBus.wrCtrl, CsrBus.bufReset, fastReads_quiet hv]
    exact ⟨rfl, rfl⟩
  frozen := fun v _ _ => (fastReads_rests v).2.trans (fastReads_rests _).2.symm

/-- The first two lanes, read two cycles apart. -/
theorem fastReads_lanes : collect (fun v => laneBeat parityTop fastReads (0 + 1 + v)) 5 = [0, 1] := by
  have hlanes := axil_linearised.2 oneBit parityTop fastReads 0 5 fastReads_drains
  obtain ⟨x, y, hxy⟩ := List.length_eq_two.mp
    (show (collect (fun v => laneBeat parityTop fastReads (0 + 1 + v)) 5).length = 2 by decide)
  have hlane : ∀ k, Capture.laneAt (run parityTop fastReads (0 + 1 + 5)).capture.core k =
      getLane (Capture.parityMem.core.uBuf.mem (BitVec.ofNat _ (k / oneBit.bufLanes))) (k % oneBit.bufLanes) :=
    fun k => by rw [Capture.laneAt, Capture.bufAt_mod, (fastReads_rests _).2]
  rw [hxy, hlanes 0 x (by rw [hxy]; rfl), hlanes 1 y (by rw [hxy]; rfl), hlane, hlane]
  decide

end AxilTop

end FpgaScope
