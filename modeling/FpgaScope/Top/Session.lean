import FpgaScope.Top.Parts

/-! A session with the chip. A host that keeps the command/response discipline on the UART gets
the register protocol: every operation is one strobe on the native bus, and what it hears on
`uart_tx` are the reference answers built from the results of the strobes. -/

namespace FpgaScope

open Protocol Clocked Host

/-- Whoever listens at a bit time that tolerates the divisor hears what is said. -/
theorem Serial.overheard {p : Params} {div dh : ℕ} (hdiv : 4 ≤ div) (hdh : 4 ≤ dh)
    (hslow : 9 * div ≤ dh / 2 + 1 + 9 * dh) (hfast : dh / 2 + 1 + 9 * dh < 10 * div) (s₀ : Serial p div)
    (inp : ℕ → SerialIn) (n : ℕ) :
    collect (fun k => (UartRx.run dh (lineOut s₀ inp) k).signals) (n + 1 + UartRx.delay dh) =
      collect (spoken s₀ inp) n := by
  have hmid : UartRx.middle dh 9 = dh / 2 + 1 + 9 * dh := by rw [UartRx.middle, Nat.mul_comm]
  rw [← hmid] at hslow hfast
  have hframed : Framed div (spoken s₀ inp) (lineOut s₀ inp) := line_framed (by omega)
  have htimed := hframed.paced.timed hdh hslow hfast
  have hall := (UartRx.signals_timed htimed UartRx.Rests.reset (UartRx.run_step _) hdh).2.2 (n + 1)
  refine hall.trans ?_
  exact collect_delayed (fun _ => rfl) (fun k hk => by rw [Nat.lt_one_iff.mp hk, if_pos rfl]) n

namespace UartTop

variable {p : Params} {div : ℕ}

/-- A session with the chip. If both clocks keep ticking, there is one stream of results, those
of the strobes on the native bus, such that from any quiet edge of `xclk` on, for a host that begins a
byte only when everything due has been said: whatever was sent is received without loss,
executed strobe by strobe as the reference says, and its answers, the words of a drain packed by
the engine's own lane buffer, are what is heard on `uart_tx` at any bit time that tolerates the
divisor. -/
theorem session_served (hdiv : 4 ≤ div) (s₀ : UartTop p div) (ev : ℕ → TopEvent p)
    (hclk : Recurs fun n => (ev n).clk = true) (hx : Recurs fun n => (ev n).xclk = true) :
    let S := serialInp s₀ ev
    let heard := fun dh k => (UartRx.run dh (Serial.lineOut s₀.serial S) k).signals
    ∃ ρ : ℕ → BitVec 32,
      (∀ n k x, ((Transport.calls s₀.gXport (xportEv s₀ ev) n).map Prod.snd)[k]? = some x → ρ k = x) ∧
      ∀ t edge sent, Serial.Quiet s₀.serial S t →
        Timed div edge sent (fun n => Serial.lineIn S (t + n)) → Serial.Disciplined s₀.serial S ρ t sent →
        ∀ n, ∃ m N, n ≤ m ∧ xclkEdges ev N = t + m ∧
          let before := (Serial.history s₀.serial S t).received
          let received := (Serial.history s₀.serial S (t + m)).received
          let ref := answer p (laneBytes p) (parse received).1 ρ
          before ++ collect sent n <+: received ∧ received <+: before ++ collect sent m ∧
          (Transport.calls s₀.gXport (xportEv s₀ ev) N).map Prod.fst = ref.ops ∧
          ∀ dh, 4 ≤ dh → 9 * div ≤ dh / 2 + 1 + 9 * dh → dh / 2 + 1 + 9 * dh < 10 * div →
            collect (heard dh) (t + m + 1 + UartRx.delay dh) = ref.sent := by
  intro S heard
  obtain ⟨ρ, hcalls, hρ⟩ := exists_results hx s₀
  refine ⟨ρ, hcalls, fun t edge sent hq hline hd n => ?_⟩
  obtain ⟨m, hm, hrx, hpre, hsaid⟩ :=
    Serial.sent_answered hdiv hq hline hρ hd (serial_returns hdiv hclk hx) n
  have hnone := Serial.received_prefix hdiv hq hline (n := m) (a := m)
    (Serial.nothing_dropped hdiv hq hline hρ hd m).1 (Nat.le_add_right m _)
  refine ⟨m, xclkAt ev (t + m), by omega, xclkEdges_at hx _, hpre, hnone, ?_, fun dh hdh hslow hfast => ?_⟩
  · have hrx' : (Transport.run s₀.gXport (xportEv s₀ ev) (xclkAt ev (t + m))).drain.rxReady = true := by
      have h := hrx
      rw [← xclkEdges_at hx (t + m), ← serial_run] at h
      rw [xport_run]
      exact h
    have hagrees : (Transport.history s₀.gXport (xportEv s₀ ev) (xclkAt ev (t + m))).Agrees ρ := by
      rw [history_eq, xclkEdges_at hx]
      exact hρ _
    obtain ⟨hops, -⟩ := (Transport.settled_run hrx').2 ρ hagrees
    rw [hops, History.due, history_eq, xclkEdges_at hx]
  · exact (Serial.overheard hdiv hdh hslow hfast s₀.serial S (t + m)).trans hsaid

/-- Registers to reset. -/
def blank (p : Params) (div : ℕ) : UartTop p div where
  uUart := .reset
  uRxFifo := (Serial.blank p div).uRxFifo
  gXport := Transport.blank p

/-- A message on the line, a byte every 170 cycles of 17 a bit, and one clock. -/
def sayEv (p : Params) (msg : List Byte) (n : ℕ) : TopEvent p where
  xclk := true
  clk := true
  uartRx := burstLine 17 170 msg n
  probe := 0
  trigExtI := false
  cmdRgraySel := 0
  cmdWgraySel := 0
  rspRgraySel := 0
  rspWgraySel := 0

theorem lineIn_sayEv (s₀ : UartTop p div) (msg : List Byte) (n : ℕ) :
    Serial.lineIn (serialInp s₀ (sayEv p msg)) n = burstLine 17 170 msg n := by
  have hat : xclkAt (sayEv p msg) n = n := Nat.nth_of_forall fun _ _ => rfl
  change burstLine 17 170 msg (xclkAt (sayEv p msg) n) = _
  rw [hat]

theorem session_served_ping : ∃ n, collect (fun k => (UartRx.run 16 (Serial.lineOut
    (blank Drain.widest 16).serial (serialInp (blank Drain.widest 16) (sayEv _ ping))) k).signals) n =
      pingReply Drain.widest := by
  have hburst := fun n => collect_burst (show 0 < 170 by decide) ping n
  obtain ⟨ρ, -, h⟩ := session_served (show 4 ≤ 16 by decide) (blank Drain.widest 16) (sayEv _ ping)
    (fun n => ⟨n, le_rfl, rfl⟩) (fun n => ⟨n, le_rfl, rfl⟩)
  have hd : Serial.Disciplined (blank Drain.widest 16).serial (serialInp (blank Drain.widest 16) (sayEv _ ping))
      ρ 0 (burstSent 170 ping) := by
    intro a b ha
    obtain ⟨hmod, hget⟩ := burstSent_cases ha
    obtain ⟨hlt, -⟩ := List.getElem?_eq_some_iff.mp hget
    rw [ping_eq] at hlt
    change (answer Drain.widest (laneBytes Drain.widest) (parse ([] ++ collect (burstSent 170 ping) a)).1
      ρ).sent <+: _
    rw [List.nil_append, hburst, Serial.parse_take_ping (by simp only [List.length] at hlt; omega)]
    exact List.nil_prefix
  have hline : Timed 16 (fun a i => a + i * 17) (burstSent 170 ping) fun n =>
      Serial.lineIn (serialInp (blank Drain.widest 16) (sayEv _ ping)) (0 + n) := by
    simp only [lineIn_sayEv, Nat.zero_add]
    exact (Paced.burst (by decide) (by decide) ping).timed (by decide) (by decide) (by decide)
  obtain ⟨m, N, hm, -, hpre, hnone, -, hheard⟩ := h 0 _ _ (.reset _ _) hline hd 1021
  have hall : ∀ k, 1021 ≤ k → collect (burstSent 170 ping) k = ping := by
    intro k hk
    have hseven : 7 ≤ (k + 169) / 170 := (Nat.le_div_iff_mul_le (by omega)).mpr (by omega)
    rw [hburst]
    exact List.take_of_length_le (by rw [ping_eq]; exact hseven)
  rw [hall 1021 le_rfl] at hpre
  rw [hall m hm] at hnone
  have hrec := hpre.eq_of_length_le hnone.length_le
  have hparse : parse ([] ++ ping) = ([pingRequest], []) := by
    rw [parse_some (next_ping rfl), show parse [] = ([], []) from parse_none rfl]
  refine ⟨_, (hheard 16 (by decide) (by decide) (by decide)).trans ?_⟩
  rw [← hrec]
  change (answer Drain.widest (laneBytes Drain.widest) (parse ([] ++ ping)).1 ρ).sent = _
  rw [hparse, answer, respond_ping]
  exact List.append_nil _

end UartTop

end FpgaScope
