import FpgaScope.Link.Export
import FpgaScope.Top.Session

/-! From the probes to the host over the pins. One `DRAIN` on `uart_rx` when a single-window
capture is done, and what comes out of `uart_tx` decodes to the samples around the trigger.
A lone request keeps the discipline by itself: until its last byte nothing new is due. -/

namespace FpgaScope

open Protocol Clocked Host

/-! ### A lone request -/

namespace Drain

theorem next_drainReq {l : List Byte} (h : hunt l = none) : next (l ++ drainReq) = some (drainRequest, []) := by
  have hsync : hunt (l ++ drainReq) = some (body scopeOpDrain [] ++
      [hi (crcOf (body scopeOpDrain [])), lo (crcOf (body scopeOpDrain []))]) := by
    rw [drainReq, frameBytes_eq (Nat.zero_le _)]
    exact hunt_sync h _
  rw [next, hsync, Option.bind_some, request_frame (Nat.zero_le _), drainRequest]

/-- No part of it is a request. -/
theorem parse_take_drainReq {l : List Byte} (h : hunt l = none) {k : ℕ} (hk : k < drainReq.length) :
    (parse (l ++ drainReq.take k)).1 = [] := by
  have hnone : next (l ++ drainReq.take k) = none := by
    by_contra hne
    obtain ⟨⟨r, rest⟩, hr⟩ := Option.ne_none_iff_exists'.mp hne
    have hall := next_append hr (drainReq.drop k)
    rw [List.append_assoc, List.take_append_drop, next_drainReq h] at hall
    have hrest := congrArg List.length (Prod.mk.inj (Option.some.inj hall)).2
    rw [List.length_append, List.length_drop, List.length_nil] at hrest
    omega
  rw [parse_none hnone]

/-- An engine in the hunt has begun no request. -/
theorem Serves.no_sync {p : Params} {ρ : ℕ → BitVec 32} {d : Drain p} {H : History} (h : Serves ρ d H)
    (hst : d.st = .hunt) : hunt (parse H.received).2 = none := by
  have hrx : d.rxReady = true := by rw [Drain.rxReady, hst]
  cases h with
  | answering hx => rw [hrx] at hx; cases hx
  | receiving h =>
    cases h with
    | hunt _ hl | sync1 _ hl => exact hl
    | synced _ hs => cases hs with | _ hs => rw [hst] at hs; cases hs

end Drain

namespace Serial

variable {p : Params} {div : ℕ} {s₀ : Serial p div} {inp : ℕ → SerialIn} {ρ : ℕ → BitVec 32} {t : ℕ}
  {sent : ℕ → Option Byte}

/-- A host that sends one `DRAIN` to an engine in the hunt keeps the discipline. -/
theorem disciplined_drain (hρ : ∀ n, (history s₀ inp n).Agrees ρ) (hhunt : (run s₀ inp t).uDrain.st = .hunt)
    (hreq : ∀ n, collect sent n <+: Drain.drainReq) : Disciplined s₀ inp ρ t sent := by
  intro a b ha
  have hserves := serves_run t (hρ t)
  have hsent : (history s₀ inp t).emitted = ((history s₀ inp t).due p ρ).sent :=
    (hserves.settled (by rw [Drain.rxReady, hhunt])).1
  -- the byte that begins in cycle `a` is still missing
  have hshort : (collect sent a).length < Drain.drainReq.length := by
    have hnext := (hreq (a + 1)).length_le
    rw [collect_some ha, List.length_append, List.length_singleton] at hnext
    omega
  have hdue : dueBy s₀ inp ρ t sent a = ((history s₀ inp t).due p ρ).sent := by
    have htake : collect sent a = Drain.drainReq.take (collect sent a).length :=
      List.prefix_iff_eq_take.mp (hreq a)
    rw [dueBy, parse_append, htake, Drain.parse_take_drainReq (hserves.no_sync hhunt) hshort, List.append_nil]
    rfl
  rw [hdue, ← hsent, emitted_eq]
  exact collect_mono _ (Nat.le_add_right t a)

end Serial

/-! ### The export -/

namespace UartTop

variable {p : Params} {div : ℕ}

/-- The pins carry the capture. A capture of one window is done, in words that drain intact, the chip is
quiet and in the hunt, and one `DRAIN` comes in on `uart_rx`. As long as both clocks tick, whoever
listens on `uart_tx` at a bit time that tolerates the divisor hears bytes that decode, with the
pretrigger count of the arm, to the samples of successive store ticks, the trigger at `trig_pos`; and
the engine is back in the hunt. -/
theorem uart_exported (hdiv : 4 ≤ div) (s₀ : UartTop p div) (ev : ℕ → TopEvent p)
    (hclk : Recurs fun n => (ev n).clk = true) (hx : Recurs fun n => (ev n).xclk = true) {a t : ℕ}
    {edge : ℕ → ℕ → ℕ} {sent : ℕ → Option Byte} (hq : Serial.Quiet s₀.serial (serialInp s₀ ev) t)
    (hhunt : (run s₀ ev (xclkAt ev t)).gXport.drain.st = .hunt)
    (hline : Timed div edge sent fun n => Serial.lineIn (serialInp s₀ ev) (t + n))
    (hpart : ∀ n, collect sent n <+: Drain.drainReq) (hwhole : ∃ n, collect sent n = Drain.drainReq) :
    let c₀ := s₀.gXport.capture
    let probed := Transport.captureInp s₀.gXport (xportEv s₀ ev)
    let core := (run s₀ ev (xclkAt ev t)).gXport.capture.core
    let heard := fun dh n => collect (fun k =>
      (UartRx.run dh (Serial.lineOut s₀.serial (serialInp s₀ ev)) k).signals) (n + 1 + UartRx.delay dh)
    Core.LastArm c₀.core (Capture.coreInp c₀ probed) a (Transport.clkEdges (xportEv s₀ ev) (xclkAt ev t)) →
    (Capture.run c₀ probed a).csr.windowsQ = 1 → core.st = .done → core.Whole →
    (p.rleEn = true → p.depthLog2 ≤ p.probeW) →
    ∃ m bytes cap d u v k, t ≤ m ∧ (Serial.run s₀.serial (serialInp s₀ ev) m).uDrain.st = .hunt ∧
      (∀ dh, 4 ≤ dh → 9 * div ≤ dh / 2 + 1 + 9 * dh → dh / 2 + 1 + 9 * dh < 10 * div →
        heard dh m = heard dh t ++ bytes) ∧
      decodeDrain (parseAll bytes) p.probeW (Capture.run c₀ probed a).csr.pretrigQ.toNat = .ok cap ∧
      Capture.TimeOrdered c₀ probed a d u v k cap := by
  intro c₀ probed core heard harm hone hdone hstored hfit
  obtain ⟨ρ, -, hρ⟩ := exists_results hx s₀
  have hserial : (Serial.run s₀.serial (serialInp s₀ ev) t).uDrain.st = .hunt := by
    rw [← xclkEdges_at hx t, ← serial_run]
    exact hhunt
  have hd := Serial.disciplined_drain hρ hserial hpart
  -- the whole request comes in and nothing else
  obtain ⟨n, hn⟩ := hwhole
  obtain ⟨m, hm, -, hpre, -⟩ := Serial.sent_answered hdiv hq hline hρ hd (serial_returns hdiv hclk hx) n
  have hrec : (Serial.history s₀.serial (serialInp s₀ ev) (t + m)).received =
      (Serial.history s₀.serial (serialInp s₀ ev) t).received ++ Drain.drainReq := by
    have hnone := Serial.received_prefix hdiv hq hline (n := m) (a := m)
      (Serial.nothing_dropped hdiv hq hline hρ hd m).1 (Nat.le_add_right m _)
    rw [hn] at hpre
    have hle := (hnone.trans ((List.prefix_append_right_inj _).mpr (hpart m))).length_le
    exact (hpre.eq_of_length_le hle).symm
  -- the transport gives the dump
  have hreq : (Transport.history s₀.gXport (xportEv s₀ ev) (xclkAt ev (t + m))).received =
      (Transport.history s₀.gXport (xportEv s₀ ev) (xclkAt ev t)).received ++ Drain.drainReq := by
    rw [history_eq, history_eq, xclkEdges_at hx, xclkEdges_at hx, hrec]
  have hle : xclkAt ev t ≤ xclkAt ev (t + m) := Nat.nth_monotone hx.infinite (Nat.le_add_right t m)
  rw [← xport_run] at hhunt
  change (run s₀ ev (xclkAt ev t)).gXport.capture.core.st = .done at hdone
  change (run s₀ ev (xclkAt ev t)).gXport.capture.core.Whole at hstored
  rw [← xport_run] at hdone hstored
  obtain ⟨hrest, cap, d, u, v, k, hcap, hordered⟩ := Transport.done_decodes harm hone hdone hfit
  obtain ⟨N, bytes, hN, hst, -, hsent, hdump⟩ :=
    Transport.drain_arrives hclk (tx_recurs hdiv hx) hle hhunt hrest hreq
  rw [hdump.mpr hstored] at hsent
  have hle' : xclkEdges ev (xclkAt ev t) ≤ xclkEdges ev N := Nat.count_monotone _ (hle.trans hN)
  rw [xclkEdges_at hx] at hle'
  refine ⟨xclkEdges ev N, _, cap, d, u, v, k, hle', ?_, fun dh hdh hslow hfast => ?_, hcap, hordered⟩
  · rw [← serial_run]
    rw [xport_run] at hst
    exact hst
  · rw [history_eq, history_eq, xclkEdges_at hx, Serial.emitted_eq, Serial.emitted_eq] at hsent
    have hafter := Serial.overheard hdiv hdh hslow hfast s₀.serial (serialInp s₀ ev) (xclkEdges ev N)
    have hbefore := Serial.overheard hdiv hdh hslow hfast s₀.serial (serialInp s₀ ev) t
    change collect _ _ = collect _ _ ++ _
    rw [hafter, hbefore, hsent]

/-! ### A capture of zeros -/

open Transport (armReq)

/-- An arm, then from edge 900 on a `DRAIN`, at four cycles a bit, with `trig_ext_i` always high and
one clock. -/
def uartArmEv (n : ℕ) : TopEvent oneBit where
  xclk := true
  clk := true
  uartRx := if n < 900 then burstLine 4 40 armReq n else burstLine 4 40 Drain.drainReq (n - 900)
  probe := 0
  trigExtI := true
  cmdRgraySel := 0
  cmdWgraySel := 0
  rspRgraySel := 0
  rspWgraySel := 0

theorem uartArmEv_at (n : ℕ) : xclkAt uartArmEv n = n := Nat.nth_of_forall fun _ _ => rfl

theorem uartArmEv_edges (n : ℕ) : xclkEdges uartArmEv n = n := Nat.count_of_forall fun _ _ => rfl

theorem uartArmEv_done : (∀ n < 901, (run (blank oneBit 4) uartArmEv n).gXport.capture.core.st = .idle → n < 500) ∧
    let s := run (blank oneBit 4) uartArmEv 900
    s.uUart.rx.rxSt = .idle ∧ s.uUart.rx.rxValid = false ∧ s.uUart.rx.rxSync = true ∧
      (s.uUart.rx.uRxSync.syncQ 0).getLsbD 0 = true ∧ s.uRxFifo.cnt = 0 ∧ s.gXport.drain.st = .hunt ∧
      s.gXport.capture.core.st = .done ∧ s.gXport.capture.core.windowsQ = 1 := by
  decide +kernel

theorem uartArmEv_serial : Serial.run (blank oneBit 4).serial (serialInp (blank oneBit 4) uartArmEv) 900 =
    (run (blank oneBit 4) uartArmEv 900).serial := by
  rw [serial_run, uartArmEv_edges]

theorem uartArmEv_quiet : Serial.Quiet (blank oneBit 4).serial (serialInp (blank oneBit 4) uartArmEv) 900 := by
  obtain ⟨-, hst, hvalid, hsync, hnext, hcnt, hhunt, -⟩ := uartArmEv_done
  refine ⟨?_, ?_, ?_⟩
  · rw [uartArmEv_serial]
    exact ⟨hst, hvalid, hsync, hnext⟩
  · obtain ⟨r, m, h⟩ : ∃ r m, FifoSync.Holds (Serial.run (blank oneBit 4).serial
      (serialInp (blank oneBit 4) uartArmEv) 900).uRxFifo _ r m := Serial.holds_run 900
    have hlen := h.cnt
    have hfits := h.fits
    rw [uartArmEv_serial] at hlen
    change (run (blank oneBit 4) uartArmEv 900).uRxFifo.cnt = _ at hlen
    rw [hcnt] at hlen
    have hnat := congrArg BitVec.toNat hlen
    rw [BitVec.toNat_ofNat, show (0 : BitVec 5).toNat = 0 from rfl] at hnat
    exact List.length_eq_zero_iff.mp (by omega)
  · have hhunt' : (run (blank oneBit 4) uartArmEv 900).serial.uDrain.st = .hunt := hhunt
    rw [uartArmEv_serial, Drain.rxReady, hhunt']

theorem uartArmEv_line : Timed 4 (fun a i => a + i * 4) (burstSent 40 Drain.drainReq)
    fun n => Serial.lineIn (serialInp (blank oneBit 4) uartArmEv) (900 + n) := by
  have hline : (fun n => Serial.lineIn (serialInp (blank oneBit 4) uartArmEv) (900 + n)) =
      burstLine 4 40 Drain.drainReq := by
    funext n
    change (uartArmEv (xclkAt uartArmEv (900 + n))).uartRx = _
    rw [uartArmEv_at, uartArmEv]
    dsimp only
    rw [if_neg (by omega), Nat.add_sub_cancel_left]
  rw [hline]
  exact (Paced.burst (by decide) (by decide) _).timed (by decide) (by decide) (by decide)

theorem uartArmEv_exported : ∃ a m bytes cap d u v k, 900 ≤ m ∧
    collect (fun j => (UartRx.run 4 (Serial.lineOut (blank oneBit 4).serial
        (serialInp (blank oneBit 4) uartArmEv)) j).signals) (m + 1 + UartRx.delay 4) =
      collect (fun j => (UartRx.run 4 (Serial.lineOut (blank oneBit 4).serial
        (serialInp (blank oneBit 4) uartArmEv)) j).signals) (900 + 1 + UartRx.delay 4) ++ bytes ∧
    decodeDrain (parseAll bytes) 1 (Capture.run (Transport.blank oneBit).capture
      (Transport.captureInp (Transport.blank oneBit) (xportEv (blank oneBit 4) uartArmEv)) a).csr.pretrigQ.toNat =
        .ok cap ∧
    Capture.TimeOrdered (Transport.blank oneBit).capture
      (Transport.captureInp (Transport.blank oneBit) (xportEv (blank oneBit 4) uartArmEv)) a d u v k cap := by
  have hburst := fun n => collect_burst (show 0 < 40 by decide) Drain.drainReq n
  obtain ⟨-, -, -, -, -, -, hhunt, hdone, hwin⟩ := uartArmEv_done
  have hdone' := hdone
  rw [← xport_run] at hdone' hwin
  obtain ⟨a, ha, hone⟩ := Transport.exists_arm hdone' hwin
  obtain ⟨m, bytes, cap, d, u, v, k, hm, -, hheard, hcap, hordered⟩ :=
    uart_exported (show 4 ≤ 4 by decide) (blank oneBit 4) uartArmEv (fun n => ⟨n, le_rfl, rfl⟩)
      (fun n => ⟨n, le_rfl, rfl⟩) uartArmEv_quiet (by rw [uartArmEv_at]; exact hhunt) uartArmEv_line
      (fun n => by rw [hburst]; exact List.take_prefix _ _) ⟨280, by rw [hburst]; decide +kernel⟩
      (by rw [uartArmEv_at]; exact ha) hone (by rw [uartArmEv_at]; exact hdone) (Or.inl (by decide))
      (fun h => absurd h (by decide))
  exact ⟨a, m, bytes, cap, d, u, v, k, hm, hheard 4 (by decide) (by decide) (by decide), hcap, hordered⟩

end UartTop

end FpgaScope
