import FpgaScope.Engine.Settled
import FpgaScope.Prim.FifoSync
import FpgaScope.Rtl.Serial
import FpgaScope.Xport.Tolerance

/-! The frame engine behind a UART, on any line. It runs as it does alone, on the bytes that come
out of the FIFO; these are among the bytes that the receiver signalled, in order, and all of them
unless one found the FIFO full. What it sends goes onto the line out as frames. -/

namespace FpgaScope

open Protocol Clocked Host

/-- What the transmitter drives can be read at any rate near its own. -/
theorem Framed.paced {div : ℕ} {sent : ℕ → Option Byte} {line : ℕ → Bool} (h : Framed div sent line) :
    Paced div (fun n => if n = 0 then none else sent (n - 1)) line where
  bit a b k ha hk := by
    cases a with
    | zero => cases ha
    | succ a =>
      rw [if_neg (Nat.succ_ne_zero a)] at ha
      exact h.bit a b k ha hk
  idle n hlow := by
    obtain ⟨a, b, k, ha, hk, rfl⟩ := h.idle n hlow
    exact ⟨a + 1, b, k, by rw [if_neg (Nat.succ_ne_zero a)]; exact ha, hk, rfl⟩
  apart a a' b b' ha ha' hlt := by
    cases a with
    | zero => cases ha
    | succ a =>
      cases a' with
      | zero => cases ha'
      | succ a' =>
        rw [if_neg (Nat.succ_ne_zero a)] at ha
        rw [if_neg (Nat.succ_ne_zero a')] at ha'
        have := h.apart a a' b b' ha ha' (by omega)
        omega

namespace Serial

variable {p : Params} {div : ℕ} (s₀ : Serial p div) (inp : ℕ → SerialIn)

/-- A run from reset. -/
def run : ℕ → Serial p div := trace step s₀.reset inp

/-- The inputs of the frame engine. -/
def engineIn (n : ℕ) : DrainIn := (run s₀ inp n).drainIn (inp n)

def rxFifoIn (n : ℕ) : FifoSyncIn 8 := (run s₀ inp n).fifoIn

/-- The pin `uart_rx`. -/
def lineIn (inp : ℕ → SerialIn) (n : ℕ) : Bool := (inp n).uartRx

/-- The pin `uart_tx`. -/
def lineOut (n : ℕ) : Bool := (run s₀ inp n).uUart.tx.uartTx

/-- The byte the receiver signals. -/
def heard (n : ℕ) : Option Byte := (run s₀ inp n).uUart.rx.signals

/-- The byte the FIFO takes. -/
def stored (n : ℕ) : Option Byte := (run s₀ inp n).uRxFifo.pushedWord (rxFifoIn s₀ inp n)

/-- The byte handed to the transmitter. -/
def spoken (n : ℕ) : Option Byte := (run s₀ inp n).uDrain.sent (engineIn s₀ inp n)

/-- What the FIFO holds. -/
def backlog : ℕ → List Byte := FifoSync.held s₀.uRxFifo (rxFifoIn s₀ inp)

/-- What went through the handshakes of the engine. -/
def history : ℕ → History := Drain.history s₀.uDrain (engineIn s₀ inp)

variable {s₀ inp}

/-! ### The parts of a run -/

theorem drain_run (n : ℕ) : Drain.run s₀.uDrain (engineIn s₀ inp) n = (run s₀ inp n).uDrain :=
  (trace_component Serial.step Drain.step s₀.reset inp Serial.uDrain Serial.drainIn (fun _ _ => rfl) n).symm

theorem fifo_run (n : ℕ) : FifoSync.run s₀.uRxFifo (rxFifoIn s₀ inp) n = (run s₀ inp n).uRxFifo :=
  (trace_component Serial.step FifoSync.step s₀.reset inp Serial.uRxFifo (fun s _ => s.fifoIn)
    (fun _ _ => rfl) n).symm

theorem rx_run (n : ℕ) : (run s₀ inp n).uUart.rx = UartRx.run div (lineIn inp) n :=
  trace_component Serial.step UartRx.step s₀.reset inp (fun s => s.uUart.rx) (fun _ i => i.uartRx)
    (fun _ _ => rfl) n

theorem execution : Drain.Execution (fun n => (run s₀ inp n).uDrain) (history s₀ inp)
    (fun n => some (engineIn s₀ inp n)) := by
  have h := Drain.execution s₀.uDrain (engineIn s₀ inp)
  rwa [show Drain.run s₀.uDrain (engineIn s₀ inp) = fun n => (run s₀ inp n).uDrain from
    funext drain_run] at h

theorem received_mono {m n : ℕ} (h : m ≤ n) :
    (history s₀ inp m).received <+: (history s₀ inp n).received := execution.received_mono m n h

/-- The engine accepts what leaves the FIFO. -/
theorem accepted_eq (n : ℕ) : (run s₀ inp n).uDrain.accepted (engineIn s₀ inp n) =
    (run s₀ inp n).uRxFifo.poppedWord (rxFifoIn s₀ inp n) := by
  change (if (run s₀ inp n).uDrain.rxReady && (run s₀ inp n).uRxFifo.rdValid then _ else none) =
    if (run s₀ inp n).uRxFifo.rdValid && (run s₀ inp n).uDrain.rxReady then _ else none
  rw [Bool.and_comm]
  rfl

theorem received_succ (n : ℕ) : (history s₀ inp (n + 1)).received =
    (history s₀ inp n).received ++ ((run s₀ inp n).uRxFifo.poppedWord (rxFifoIn s₀ inp n)).toList := by
  rw [← accepted_eq, ← drain_run]
  rfl

theorem received_eq (n : ℕ) : (history s₀ inp n).received =
    FifoSync.popped s₀.uRxFifo (rxFifoIn s₀ inp) n := by
  induction n with
  | zero => rfl
  | succ n ih =>
    rw [received_succ, ih, FifoSync.popped, FifoSync.popped, collect_succ]
    rw [fifo_run]

theorem emitted_eq (n : ℕ) : (history s₀ inp n).emitted = collect (spoken s₀ inp) n := by
  induction n with
  | zero => rfl
  | succ n ih =>
    rw [collect_succ, ← ih, spoken, ← drain_run]
    rfl

/-- Every byte stored is accepted or waits. -/
theorem received_append_backlog (n : ℕ) :
    (history s₀ inp n).received ++ backlog s₀ inp n = collect (stored s₀ inp) n := by
  rw [received_eq, backlog, FifoSync.popped_append_held, FifoSync.pushed]
  refine collect_congr fun k _ => ?_
  rw [fifo_run]
  rfl

theorem holds_run (n : ℕ) : ∃ r m, FifoSync.Holds (run s₀ inp n).uRxFifo (backlog s₀ inp n) r m := by
  have h := FifoSync.holds_run s₀.uRxFifo (rxFifoIn s₀ inp) n
  rwa [fifo_run] at h

theorem backlog_succ (n : ℕ) : backlog s₀ inp (n + 1) = Queue.next (backlog s₀ inp n) (stored s₀ inp n)
    ((run s₀ inp n).uRxFifo.pop (rxFifoIn s₀ inp n)) := by
  rw [backlog, FifoSync.held_succ, fifo_run]
  rfl

/-- A byte is stored unless it finds the FIFO full. -/
theorem stored_eq (n : ℕ) : stored s₀ inp n = if (backlog s₀ inp n).length = 16 then none else heard s₀ inp n := by
  obtain ⟨r, m, h⟩ : ∃ r m, FifoSync.Holds (run s₀ inp n).uRxFifo (backlog s₀ inp n) r m := holds_run n
  have hfull := h.wrReady_iff
  change (if (run s₀ inp n).uUart.rx.rxValid && (run s₀ inp n).uRxFifo.wrReady then
    some (run s₀ inp n).uUart.rx.rxData else none) = _
  unfold heard UartRx.signals
  by_cases hl : (backlog s₀ inp n).length = 16
  · rw [if_pos hl, hfull.mpr hl, Bool.and_false, if_neg (by decide)]
  · have hready : (run s₀ inp n).uRxFifo.wrReady = true := by
      by_contra hno
      exact hl (hfull.mp (Bool.not_eq_true _ ▸ hno))
    rw [if_neg hl, hready, Bool.and_true]

theorem stored_sublist (n : ℕ) : List.Sublist (collect (stored s₀ inp) n) (collect (heard s₀ inp) n) := by
  refine collect_sublist (fun k => ?_) n
  rw [stored_eq]
  split
  · exact Or.inl rfl
  · exact Or.inr rfl

theorem spoken_eq : spoken s₀ inp = UartTx.accepts (fun n => (run s₀ inp n).uUart.tx)
    (fun n => (run s₀ inp n).uDrain.txData) (fun n => (run s₀ inp n).uDrain.txValid) := rfl

theorem line_framed (hdiv : 2 ≤ div) : Framed div (spoken s₀ inp) (lineOut s₀ inp) := by
  rw [spoken_eq]
  exact UartTx.framed hdiv rfl fun _ => rfl

theorem serves_run {ρ : ℕ → BitVec 32} (n : ℕ) (hρ : (history s₀ inp n).Agrees ρ) :
    Drain.Serves ρ (run s₀ inp n).uDrain (history s₀ inp n) :=
  execution.serves (.start rfl) n hρ

/-- Behind a UART the frame engine serves the bytes that it gets. On any line: these are among
the bytes heard, in order, and all that the FIFO does not hold unless it was full once; what is
sent is a prefix of their answers, the words of a drain packed by the engine's own lane buffer;
and whoever listens at a bit time that tolerates the divisor hears exactly that. -/
theorem any_line (hdiv : 4 ≤ div) (s₀ : Serial p div) (inp : ℕ → SerialIn) (n : ℕ) (ρ : ℕ → BitVec 32)
    (hρ : (history s₀ inp n).Agrees ρ) :
    List.Sublist ((history s₀ inp n).received ++ backlog s₀ inp n) (collect (heard s₀ inp) n) ∧
    ((∀ k < n, (backlog s₀ inp k).length < 16) →
      (history s₀ inp n).received ++ backlog s₀ inp n = collect (heard s₀ inp) n) ∧
    collect (spoken s₀ inp) n <+:
      (answer p (laneBytes p) (parse (history s₀ inp n).received).1 ρ).sent ∧
    ∀ dh, 4 ≤ dh → 9 * div ≤ dh / 2 + 1 + 9 * dh → dh / 2 + 1 + 9 * dh < 10 * div →
      ∀ k, (UartRx.run dh (lineOut s₀ inp) (k + 1 + UartRx.delay dh)).signals = spoken s₀ inp k := by
  refine ⟨?_, fun hroom => ?_, ?_, fun dh hdh hslow hfast k => ?_⟩
  · rw [received_append_backlog]
    exact stored_sublist n
  · rw [received_append_backlog]
    refine collect_congr fun k hk => ?_
    rw [stored_eq, if_neg (by have := hroom k hk; omega)]
  · rw [← emitted_eq]
    exact Drain.Serves.emitted_prefix (serves_run n hρ)
  · have hmid : UartRx.middle dh 9 = dh / 2 + 1 + 9 * dh := by rw [UartRx.middle, Nat.mul_comm]
    rw [← hmid] at hslow hfast
    have hframed : Framed div (spoken s₀ inp) (lineOut s₀ inp) := line_framed (by omega)
    have htimed := hframed.paced.timed hdh hslow hfast
    have hread := (UartRx.signals_timed htimed UartRx.Rests.reset (UartRx.run_step _) hdh).1 (k + 1)
    rw [hread, if_neg (Nat.succ_ne_zero k), Nat.add_sub_cancel]

/-- Everything zero but for the registers of the UART. -/
def blank (p : Params) (div : ℕ) : Serial p div where
  uUart := .reset
  uRxFifo := { waddr := 0, raddr := 0, cnt := 0, ramCnt := 0, outVld := false,
               ram := { mem := fun _ => 0, rdData := 0 } }
  uDrain := Drain.blank p

/-- A message on the line, a byte every `gap` cycles, and a capture domain that answers with zeros. -/
def burstIn (per gap : ℕ) (msg : List Byte) (n : ℕ) : SerialIn where
  uartRx := burstLine per gap msg n
  cmdWrReady := true
  rspRdData := 0
  rspRdValid := true

theorem zeros_agree {s₀ : Serial p div} {inp : ℕ → SerialIn} (h : ∀ n, (inp n).rspRdData = 0) (n : ℕ) :
    (history s₀ inp n).Agrees fun _ => 0 := by
  have hzero : ∀ x ∈ (history s₀ inp n).replies, x = 0 := by
    induction n with
    | zero => nofun
    | succ n ih =>
      intro x hx
      rcases List.mem_append.mp hx with hold | hnew
      · exact ih x hold
      · rw [Option.mem_toList, Drain.taken] at hnew
        split at hnew
        · exact (Option.some.inj hnew).symm.trans (h n)
        · cases hnew
  exact fun k x hx => (hzero x (List.mem_of_getElem? hx)).symm

theorem any_line_burst :
    List.Sublist ((history (blank Drain.widest 16) (burstIn 16 160 [0xA5, 0x5C]) 480).received ++
        backlog (blank Drain.widest 16) (burstIn 16 160 [0xA5, 0x5C]) 480)
      (collect (heard (blank Drain.widest 16) (burstIn 16 160 [0xA5, 0x5C])) 480) ∧
    ∀ k, (UartRx.run 16 (lineOut (blank Drain.widest 16) (burstIn 16 160 [0xA5, 0x5C]))
      (k + 1 + UartRx.delay 16)).signals = spoken (blank Drain.widest 16) (burstIn 16 160 [0xA5, 0x5C]) k := by
  have h := any_line (show 4 ≤ 16 by decide) (blank Drain.widest 16) (burstIn 16 160 [0xA5, 0x5C]) 480 _
    (zeros_agree (fun _ => rfl) 480)
  exact ⟨h.1, h.2.2.2 16 (by decide) (by decide) (by decide)⟩

end Serial

end FpgaScope
