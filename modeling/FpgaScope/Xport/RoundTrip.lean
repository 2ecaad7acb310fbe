import FpgaScope.Xport.Receive

/-! Two UARTs on one clock: whatever the other inputs do, the second signals what the first
accepted. -/

namespace FpgaScope.UartLink

open Clocked

variable (div : ℕ) (inp : ℕ → UartLinkIn)

/-- A run of the two from reset. -/
abbrev run (n : ℕ) : UartLink div := trace step .reset inp n

/-- The byte the first UART accepts in a cycle. -/
def accepted (n : ℕ) : Option Byte := (run div inp n).near.accepted (inp n).near

/-- The byte the second UART signals in a cycle. -/
def received (n : ℕ) : Option Byte := (run div inp n).far.received

def nearTx (n : ℕ) : UartTx div := (run div inp n).near.tx

def farRx (n : ℕ) : UartRx div := (run div inp n).far.rx

theorem nearTx_step (n : ℕ) :
    nearTx div inp (n + 1) = (nearTx div inp n).step (inp n).near.txData (inp n).near.txValid := rfl

theorem farRx_step (n : ℕ) :
    farRx div inp (n + 1) = (farRx div inp n).step (nearTx div inp n).uartTx := rfl

variable {div}

/-- The line between them. -/
theorem line_framed (hdiv : 4 ≤ div) :
    Framed div (accepted div inp) (fun n => (nearTx div inp n).uartTx) :=
  UartTx.framed (by omega) rfl (nearTx_step div inp)

/-- The bytes signalled are the bytes accepted, each once and in order, one latency later. -/
theorem uart_round_trip (hdiv : 4 ≤ div) :
    (∀ n, received div inp (n + UartRx.latency div) = accepted div inp n) ∧
    (∀ n < UartRx.latency div, received div inp n = none) ∧
    ∀ n, collect (received div inp) (n + UartRx.latency div) = collect (accepted div inp) n := by
  have hline := line_framed inp hdiv
  have hstep := farRx_step div inp
  have hsent : ∀ n b, received div inp n = some b →
      ∃ a, n = a + UartRx.latency div ∧ accepted div inp a = some b :=
    fun n b h => UartRx.sent_of_signals hdiv hline rfl hstep h
  have hlate : ∀ n, received div inp (n + UartRx.latency div) = accepted div inp n := by
    intro n
    cases ha : accepted div inp n with
    | some b => exact UartRx.signals_of_sent hdiv hline rfl hstep ha
    | none =>
      refine Option.eq_none_iff_forall_ne_some.mpr fun b hb => ?_
      obtain ⟨a, heq, hab⟩ := hsent _ _ hb
      obtain rfl : n = a := by omega
      rw [ha] at hab
      cases hab
  have hearly : ∀ n < UartRx.latency div, received div inp n = none := by
    intro n hn
    refine Option.eq_none_iff_forall_ne_some.mpr fun b hb => ?_
    obtain ⟨a, heq, -⟩ := hsent _ _ hb
    omega
  exact ⟨hlate, hearly, collect_delayed hlate hearly⟩

/-- A byte is always waiting, so that frames follow without a gap. -/
def backToBack (n : ℕ) : UartLinkIn where
  near := { uartRx := true, txData := BitVec.ofNat 8 n, txValid := true }
  farData := 0
  farValid := false

theorem backToBack_received :
    collect (received 5 backToBack) (52 + UartRx.latency 5) = [0, 51] :=
  ((uart_round_trip backToBack (show 4 ≤ 5 by decide)).2.2 52).trans (by decide +kernel)

end FpgaScope.UartLink
