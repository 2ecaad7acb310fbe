import FpgaScope.Link.Live
import FpgaScope.Rtl.Top
import FpgaScope.Xport.Session

/-! The two views of `scope_top` on a UART. On the edges of `xclk` it is the UART with the frame
engine, with the FIFOs to the capture domain as inputs; event by event it is the transport, with
the UART as its host. Either side gives the other what it waits for, so the chip needs nothing but
clocks that tick. -/

namespace FpgaScope

open Protocol Clocked Host

namespace UartTop

variable {p : Params} {div : ℕ}

/-! ### The views -/

section
variable (s : UartTop p div) (e : TopEvent p)

/-- The `xclk` side without the FIFOs to the capture domain. -/
def serial : Serial p div where
  uUart := s.uUart
  uRxFifo := s.uRxFifo
  uDrain := s.gXport.drain

def serialIn : SerialIn where
  uartRx := e.uartRx
  cmdWrReady := s.gXport.cmdFifo.wrReady
  rspRdData := s.gXport.rspFifo.rd.rdData
  rspRdValid := s.gXport.rspFifo.rdValid

theorem serial_step : (s.step e).serial = if e.xclk then s.serial.step (s.serialIn e) else s.serial := by
  unfold step serial Transport.step xportEvent
  cases e.xclk <;> rfl

end

section
variable (s₀ : UartTop p div) (ev : ℕ → TopEvent p)

/-- The chip over a sequence of clock edges after a joint reset. -/
def run : ℕ → UartTop p div := trace step s₀.reset ev

/-- The events of the transport. -/
def xportEv (n : ℕ) : TransportEvent p := (run s₀ ev n).xportEvent (ev n)

theorem xport_run (n : ℕ) : Transport.run s₀.gXport (xportEv s₀ ev) n = (run s₀ ev n).gXport :=
  (trace_component step Transport.step s₀.reset ev gXport xportEvent (fun _ _ => rfl) n).symm

/-- Edges of `xclk` before event `n`, and the event of edge `k`. -/
def xclkEdges (n : ℕ) : ℕ := Nat.count (fun k => (ev k).xclk = true) n

noncomputable def xclkAt (k : ℕ) : ℕ := Nat.nth (fun n => (ev n).xclk = true) k

/-- The inputs of the serial side at edge `k`. -/
noncomputable def serialInp (k : ℕ) : SerialIn := (run s₀ ev (xclkAt ev k)).serialIn (ev (xclkAt ev k))

theorem serial_run (n : ℕ) :
    (run s₀ ev n).serial = Serial.run s₀.serial (serialInp s₀ ev) (xclkEdges ev n) :=
  trace_gated Serial.step (fun n => (run s₀ ev n).serial) (fun n => (run s₀ ev n).serialIn (ev n))
    (fun n => (ev n).xclk = true) (fun _ => serial_step _ _) n

theorem xclkEdges_succ (n : ℕ) : xclkEdges ev (n + 1) = xclkEdges ev n + (ev n).xclk.toNat := by
  rw [xclkEdges, Nat.count_succ]
  cases (ev n).xclk <;> rfl

variable {ev}

theorem xclkAt_edges {n : ℕ} (h : (ev n).xclk = true) : xclkAt ev (xclkEdges ev n) = n := Nat.nth_count h

/-- Both views tell the same history. -/
theorem history_eq (n : ℕ) : Transport.history s₀.gXport (xportEv s₀ ev) n =
    Serial.history s₀.serial (serialInp s₀ ev) (xclkEdges ev n) := by
  induction n with
  | zero => rfl
  | succ n ih =>
    rw [Transport.history, ih, xport_run, xclkEdges_succ]
    cases hx : (ev n).xclk with
    | false =>
      have hin : (run s₀ ev n).gXport.engineIn (xportEv s₀ ev n) = none := if_neg (by
        change ¬ (ev n).xclk = true
        rw [hx]
        decide)
      rw [hin]
      rfl
    | true =>
      have hin : (run s₀ ev n).gXport.engineIn (xportEv s₀ ev n) =
          some (Serial.engineIn s₀.serial (serialInp s₀ ev) (xclkEdges ev n)) := by
        rw [Serial.engineIn, ← serial_run, serialInp, xclkAt_edges hx]
        exact if_pos hx
      rw [hin, Bool.toNat_true]
      change History.after _ (run s₀ ev n).serial.uDrain _ = History.after _ (Drain.run _ _ _) _
      rw [serial_run]
      exact congrArg (fun d => History.after _ d _) (Serial.drain_run _).symm

end

/-! ### Nothing but clocks that tick -/

section
variable {s₀ : UartTop p div} {ev : ℕ → TopEvent p} (hdiv : 4 ≤ div)
  (hclk : Recurs fun n => (ev n).clk = true) (hx : Recurs fun n => (ev n).xclk = true)

include hx

theorem xclkEdges_at (k : ℕ) : xclkEdges ev (xclkAt ev k) = k := hx.count_nth k

include hdiv

/-- The transmitter takes bytes again and again. -/
theorem tx_recurs : Recurs fun n => (xportEv s₀ ev n).xclk = true ∧ (xportEv s₀ ev n).txReady = true := by
  have htx : Recurs fun k => (Serial.engineIn s₀.serial (serialInp s₀ ev) k).txReady = true :=
    Serial.tx_recurs hdiv
  refine (hx.of_edges htx).mono fun n ⟨hn, hready⟩ => ⟨hn, ?_⟩
  change (Serial.run s₀.serial (serialInp s₀ ev) (xclkEdges ev n)).uUart.tx.txReady = true at hready
  rwa [← serial_run] at hready

include hclk

/-- The frame engine comes back to receiving. -/
theorem serial_returns : Serial.Returns s₀.serial (serialInp s₀ ev) := by
  intro k
  obtain ⟨m, hm, hrx, hrec⟩ := Transport.returns (show Recurs fun n => (xportEv s₀ ev n).clk = true from hclk)
    (tx_recurs hdiv hx) (xclkAt ev k)
  rw [history_eq, history_eq, xclkEdges_at hx] at hrec
  rw [xport_run] at hrx
  have hle : xclkEdges ev (xclkAt ev k) ≤ xclkEdges ev m := Nat.count_monotone _ hm
  rw [xclkEdges_at hx] at hle
  refine ⟨xclkEdges ev m, hle, ?_, hrec⟩
  rw [← serial_run]
  exact hrx

omit hdiv hclk in
/-- One stream holds the results of all strobes, and with them all replies. -/
theorem exists_results (s₀ : UartTop p div) : ∃ ρ : ℕ → BitVec 32,
    (∀ n k x, ((Transport.calls s₀.gXport (xportEv s₀ ev) n).map Prod.snd)[k]? = some x → ρ k = x) ∧
      ∀ n, (Serial.history s₀.serial (serialInp s₀ ev) n).Agrees ρ := by
  obtain ⟨ρ, hρ⟩ := exists_stream (l := fun n => (Transport.calls s₀.gXport (xportEv s₀ ev) n).map Prod.snd)
    fun m n h => (collect_mono _ h).map _
  refine ⟨ρ, hρ, fun n k x hk => ?_⟩
  have hreplies := (Transport.phase_link s₀.gXport (xportEv s₀ ev) (xclkAt ev n)).replies_told
  rw [history_eq, xclkEdges_at hx] at hreplies
  obtain ⟨rest, hrest⟩ := hreplies
  obtain ⟨hlt, -⟩ := List.getElem?_eq_some_iff.mp hk
  refine hρ (xclkAt ev n) k x ?_
  rw [← hrest, List.getElem?_append_left hlt, hk]

end

end UartTop

end FpgaScope
