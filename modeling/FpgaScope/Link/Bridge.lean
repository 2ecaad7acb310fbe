import FpgaScope.Front.Jtag
import FpgaScope.Link.Live
import FpgaScope.Protocol.Recovery
import FpgaScope.Rtl.JtagTop

/-! Sessions over the byte bridge. The bridge and the frame engine agree on every byte, and the bridge
holds a byte until the engine takes it, so a host that polls loses none, also while the engine
is busy with an answer. -/

namespace FpgaScope

open Clocked Protocol

/-- The engine looks at `tx_ready` while it offers a byte only. -/
theorem Drain.step_txReady {p : Params} (d : Drain p) (i : DrainIn) (r : Bool) (h : d.txValid = true → i.txReady = r) :
    d.step i = d.step { i with txReady := r } := by
  cases hst : d.st with
  | emit =>
    have hr := h (by rw [txValid, hst]; rfl)
    rw [← hr]
  | _ => simp only [step, hst]

theorem Transport.step_txReady {p : Params} (t : Transport p) (e : TransportEvent p) (r : Bool)
    (h : t.drain.txValid = true → e.txReady = r) : t.step e = t.step { e with txReady := r } := by
  unfold step
  rw [Drain.step_txReady t.drain (t.drainIn e) r h]
  rfl

namespace JtagTop

variable {p : Params} (s₀ : JtagTop p) (inp : ℕ → JtagTopIn p)

def run : ℕ → JtagTop p := trace step s₀.reset inp

def jtagInp (n : ℕ) : JtagIn := (run s₀ inp n).jtagIn (inp n)

/-- The events of the scope, as one that is ready whenever `RXDATA` is read. -/
def scopeEv (n : ℕ) : TransportEvent p := { (run s₀ inp n).scopeEvent (inp n) with txReady := (jtagInp s₀ inp n).rdRx }

theorem jtag_run (n : ℕ) : Jtag.run (jtagInp s₀ inp) n = (run s₀ inp n).uJtag :=
  (trace_component step Jtag.step s₀.reset inp uJtag jtagIn (fun _ _ => rfl) n).symm

theorem scope_run (n : ℕ) : Transport.run s₀.uScopeJ (scopeEv s₀ inp) n = (run s₀ inp n).uScopeJ := by
  induction n with
  | zero => rfl
  | succ n ih =>
    change Transport.step (Transport.run s₀.uScopeJ (scopeEv s₀ inp) n) _ =
      (run s₀ inp n).uScopeJ.step ((run s₀ inp n).scopeEvent (inp n))
    rw [ih]
    refine (Transport.step_txReady _ _ _ fun hv => ?_).symm
    change ((jtagInp s₀ inp n).rdRx && (run s₀ inp n).uScopeJ.drain.txValid) = (jtagInp s₀ inp n).rdRx
    rw [hv, Bool.and_true]

/-- The bytes of the bridge are the bytes of the frame engine. -/
theorem history_eq (n : ℕ) :
    (Transport.history s₀.uScopeJ (scopeEv s₀ inp) n).received = collect (Jtag.handed (jtagInp s₀ inp)) n ∧
    (Transport.history s₀.uScopeJ (scopeEv s₀ inp) n).emitted = collect (Jtag.returned (jtagInp s₀ inp)) n := by
  induction n with
  | zero => exact ⟨rfl, rfl⟩
  | succ n ih =>
    rw [collect_succ, collect_succ, ← ih.1, ← ih.2, Transport.history, scope_run]
    change _ ++ _ = _ ∧ _ ++ _ = _
    refine ⟨congrArg _ (congrArg _ ?_), congrArg _ (congrArg _ ?_)⟩
    · rw [Jtag.handed, jtag_run, Bool.and_comm]
      rfl
    · rw [Jtag.returned_eq, Jtag.emitted, JtagIn.txReady, Bool.and_comm (jtagInp s₀ inp n).rdRx, ← Bool.and_assoc,
        Bool.and_self]
      rfl

/-- The strobes on the native bus before cycle `n`, with their results. -/
def strobes (n : ℕ) : List (CsrOp × BitVec 32) := Transport.calls s₀.uScopeJ (scopeEv s₀ inp) n

variable {s₀ inp}

/-- A host that reads `RXDATA` again and again finds the engine receiving again and again. -/
theorem returns (hread : Recurs fun n => (jtagInp s₀ inp n).rdRx = true) (n : ℕ) :
    ∃ m, n ≤ m ∧ (Transport.run s₀.uScopeJ (scopeEv s₀ inp) m).drain.rxReady = true ∧
      collect (Jtag.handed (jtagInp s₀ inp)) m = collect (Jtag.handed (jtagInp s₀ inp)) n := by
  have hclk : Recurs fun n => (scopeEv s₀ inp n).clk = true := fun n => ⟨n, le_rfl, rfl⟩
  obtain ⟨m, hm, hrx, hrec⟩ := Transport.returns hclk (hread.mono fun _ h => ⟨rfl, h⟩) n
  rw [(history_eq s₀ inp m).1, (history_eq s₀ inp n).1] at hrec
  exact ⟨m, hm, hrx, hrec⟩

/-- A session over the bridge. The host polls `STATUS` before each byte it writes and goes on reading
`RXDATA`; then at some time after any cycle `n` all it wrote before `n` has been received, executed and
answered: the requests in the bytes received have made the strobes on the native bus, in order and each
once, and what has been read are their answers. -/
theorem bridge_served (hwidth : p.storeW ≤ 512) (s₀ : JtagTop p) (inp : ℕ → JtagTopIn p)
    (hpoll : Jtag.Polls (jtagInp s₀ inp)) (hread : Recurs fun n => (jtagInp s₀ inp n).rdRx = true) (n : ℕ) :
    ∃ m req, n ≤ m ∧ collect (Jtag.written (jtagInp s₀ inp)) n <+: req ∧
      req <+: collect (Jtag.written (jtagInp s₀ inp)) m ∧
      let ref := answer p (wordBytes p) (parse req).1 (Transport.results (strobes s₀ inp m))
      (strobes s₀ inp m).map Prod.fst = ref.ops ∧ collect (Jtag.returned (jtagInp s₀ inp)) m = ref.sent := by
  have hready : Recurs fun n => (jtagInp s₀ inp n).rxReady = true := fun n => by
    obtain ⟨m, hm, hrx, -⟩ := returns hread n
    rw [scope_run] at hrx
    exact ⟨m, hm, hrx⟩
  obtain ⟨k, hk, hwritten⟩ := Jtag.written_arrives hpoll hready n
  obtain ⟨m, hm, hrx, hrec⟩ := returns hread k
  have hconserved := Jtag.written_conserved hpoll m
  obtain ⟨hreplies, hdone⟩ := Transport.settled_run hrx
  obtain ⟨hops, hsent⟩ := hdone _ (Transport.agrees_results hreplies)
  obtain ⟨hreceived, hemitted⟩ := history_eq s₀ inp m
  refine ⟨m, collect (Jtag.handed (jtagInp s₀ inp)) m, by omega, hrec ▸ hwritten, ⟨_, hconserved⟩, ?_, ?_⟩
  · rw [← hreceived]
    exact hops.trans (answer_ops _ _ _ _)
  · rw [← hemitted, ← hreceived, hsent]
    exact (answer_sent_eq_iff _ _).mpr (allIntact_of_narrow hwidth _ _)

/-- Registers to reset. -/
def blank (p : Params) : JtagTop p where
  uJtag := .reset
  uScopeJ := Transport.blank p

/-- A `PING`: a poll, a write and a read for each byte, then reads. -/
def pingIn (n : ℕ) : JtagTopIn oneBit where
  avalon :=
    { address := if n < 21 ∧ n % 3 = 0 then regStatus else if n < 21 ∧ n % 3 = 1 then regTxdata else regRxdata
      read := decide (¬ (n < 21 ∧ n % 3 = 1))
      write := decide (n < 21 ∧ n % 3 = 1)
      writedata := (Protocol.ping.getD (n / 3) 0).setWidth 32 }
  scopeProbeQ := 0
  cmdRgraySel := 0
  cmdWgraySel := 0
  rspRgraySel := 0
  rspWgraySel := 0

theorem pingIn_polls : Jtag.Polls (jtagInp (blank oneBit) pingIn) := by
  have hshown : ∀ k < 7, ((Jtag.run (jtagInp (blank oneBit) pingIn) (3 * k)).readdata
      (jtagInp (blank oneBit) pingIn (3 * k))).getLsbD 1 = true := by
    simp only [jtag_run]
    decide +kernel
  have hwrite : ∀ n, (jtagInp (blank oneBit) pingIn n).wrTx = true → n < 21 ∧ n % 3 = 1 := by
    intro n hw
    by_contra hn
    simp [JtagIn.wrTx, jtagInp, jtagIn, pingIn, hn] at hw
  intro n hw
  obtain ⟨hlt, hmod⟩ := hwrite n hw
  have hn : n = 3 * (n / 3) + 1 := by omega
  refine ⟨3 * (n / 3), by omega, ?_, hshown _ (by omega), fun v h₁ h₂ => ?_⟩
  · have hpoll : 3 * (n / 3) < 21 ∧ 3 * (n / 3) % 3 = 0 := by omega
    simp [JtagIn.rdStatus, jtagInp, jtagIn, pingIn, hpoll]
  · by_contra hne
    have := hwrite v (by simpa using hne)
    omega

theorem pingIn_served : ∃ m req, 21 ≤ m ∧ Protocol.ping <+: req ∧
    req <+: collect (Jtag.written (jtagInp (blank oneBit) pingIn)) m ∧
    let ref := answer oneBit (wordBytes oneBit) (parse req).1 (Transport.results (strobes (blank oneBit) pingIn m))
    (strobes (blank oneBit) pingIn m).map Prod.fst = ref.ops ∧
      collect (Jtag.returned (jtagInp (blank oneBit) pingIn)) m = ref.sent := by
  have hsent : collect (Jtag.written (jtagInp (blank oneBit) pingIn)) 21 = Protocol.ping := by decide +kernel
  rw [← hsent]
  exact bridge_served (by decide) (blank oneBit) pingIn pingIn_polls
    (fun n => ⟨n + 21, by omega, by simp [JtagIn.rdRx, jtagInp, jtagIn, pingIn]⟩) 21

end JtagTop

end FpgaScope
