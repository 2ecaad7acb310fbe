import FpgaScope.Capture.Single
import FpgaScope.Link.Live

/-! From the probes to the exported capture, through both clock domains. The host asks for a
`DRAIN` when a single-window capture is done; with clocks that tick the dump comes back
complete, and decoded it is the stretch of samples around the trigger, in the order in which
they were taken. -/

namespace FpgaScope

open Protocol Clocked Host

/-! ### Histories and runs from the middle -/

namespace History

variable {p : Params}

/-- A history and what came after it. -/
def append (H H' : History) : History where
  received := H.received ++ H'.received
  emitted := H.emitted ++ H'.emitted
  operations := H.operations ++ H'.operations
  replies := H.replies ++ H'.replies

theorem append_next (H H' : History) (d : Drain p) (x : Option DrainIn) :
    (H.append H').next d x = H.append (H'.next d x) := by
  cases x with
  | none => rfl
  | some i => simp only [next, after, append, List.append_assoc]

end History

theorem Link.Fair.shift {p : Params} {ev : ℕ → LinkEvent p} (h : Link.Fair ev) (t : ℕ) :
    Link.Fair fun n => ev (t + n) :=
  ⟨h.tx.shift t, h.cmdIn.shift t, h.cmdOut.shift t, h.rspIn.shift t, h.rspOut.shift t⟩

namespace Transport

variable {p : Params} (t₀ : Transport p) (ev : ℕ → TransportEvent p)

/-- The link of a run from event `t` on. -/
def linkEvFrom (t n : ℕ) : LinkEvent p := linkEv t₀ ev (t + n)

theorem run_linkEvFrom (t n : ℕ) : Link.run (link t₀ ev t) (linkEvFrom t₀ ev t) n = link t₀ ev (t + n) := by
  have h := trace_add Link.step t₀.startLink (linkEv t₀ ev) t n
  change Link.run t₀.startLink (linkEv t₀ ev) (t + n) =
    Link.run (Link.run t₀.startLink (linkEv t₀ ev) t) (linkEvFrom t₀ ev t) n at h
  rw [run_linkEv, run_linkEv] at h
  exact h.symm

theorem history_linkEvFrom (t n : ℕ) : history t₀ ev (t + n) =
    (history t₀ ev t).append (Link.history (link t₀ ev t) (linkEvFrom t₀ ev t) n) := by
  induction n with
  | zero => simp [History.append, Link.history, History.empty]
  | succ n ih =>
    rw [← Nat.add_assoc, history, ih, History.append_next, Link.history, run_linkEvFrom, linkEvFrom,
      engineIn_linkEv, (refines_link t₀ ev (t + n)).drain]

variable {t₀ ev}

theorem link_quiet {t : ℕ} (h : (run t₀ ev t).drain.st = .hunt) : (link t₀ ev t).Quiet := by
  have hst : (link t₀ ev t).drain.st = .hunt := by rw [(refines_link t₀ ev t).drain, h]
  obtain ⟨⟨hc, hs, hr⟩, -⟩ := (phase_link t₀ ev t).done (by rw [hst]; decide)
  exact ⟨hst, hc, hs, hr⟩

/-! ### One `DRAIN` -/

/-- A `DRAIN` of a core at rest comes back complete. -/
theorem drain_arrives (hclk : Recurs fun n => (ev n).clk = true)
    (htx : Recurs fun n => (ev n).xclk = true ∧ (ev n).txReady = true) {t n : ℕ} (hle : t ≤ n)
    (hhunt : (run t₀ ev t).drain.st = .hunt) (hrest : (run t₀ ev t).capture.core.Rests)
    (hreq : (history t₀ ev n).received = (history t₀ ev t).received ++ Drain.drainReq) :
    ∃ m bytes, n ≤ m ∧ (run t₀ ev m).drain.st = .hunt ∧
      (history t₀ ev m).received = (history t₀ ev n).received ∧
      (history t₀ ev m).emitted = (history t₀ ev t).emitted ++ bytes ∧
      (bytes = (run t₀ ev t).capture.core.dump ↔ (run t₀ ev t).capture.core.Whole) := by
  obtain ⟨k, rfl⟩ := Nat.exists_eq_add_of_le hle
  have hquiet := link_quiet hhunt
  rw [← (refines_link t₀ ev t).capture] at hrest ⊢
  have hfair : Link.Fair (linkEvFrom t₀ ev t) := (fair hclk htx).shift t
  have hrec : (Link.history (link t₀ ev t) (linkEvFrom t₀ ev t) k).received = Drain.drainReq := by
    rw [history_linkEvFrom] at hreq
    exact List.append_cancel_left hreq
  obtain ⟨m, hm, hrx, hsame⟩ := Link.returns hquiet hfair k
  have hparse : parse (Link.history (link t₀ ev t) (linkEvFrom t₀ ev t) m).received =
      ([drainRequest], []) := by rw [hsame, hrec, Drain.parse_drainReq]
  have hasks := Link.asks_of_parse hparse
  have hdump := Link.dumping_run hquiet hasks (Link.parked_run hquiet hrest hasks) m le_rfl
  obtain ⟨hst, hsent⟩ := hdump.settled hparse hrx
  rw [run_linkEvFrom, (refines_link t₀ ev (t + m)).drain] at hst
  refine ⟨t + m, _, by omega, hst, ?_, ?_, hsent⟩
  · rw [history_linkEvFrom, history_linkEvFrom t₀ ev t k]
    change _ ++ _ = _ ++ _
    rw [hsame]
  · rw [history_linkEvFrom]
    rfl

/-! ### The capture domain on its own clock -/

variable (t₀ ev)

/-- Edges of `clk` before event `n`. -/
def clkEdges (n : ℕ) : ℕ := Nat.count (fun k => (ev k).clk = true) n

/-- What the capture domain sees at edge `k` of its clock. -/
noncomputable def captureInp (k : ℕ) : CaptureIn p :=
  let n := Nat.nth (fun j => (ev j).clk = true) k
  (run t₀ ev n).captureIn (ev n)

theorem capture_run (n : ℕ) :
    (run t₀ ev n).capture = Capture.run t₀.capture (captureInp t₀ ev) (clkEdges ev n) :=
  trace_gated Capture.step (fun n => (run t₀ ev n).capture) (fun n => (run t₀ ev n).captureIn (ev n))
    (fun n => (ev n).clk = true) (fun _ => rfl) n

variable {t₀ ev}

/-- The dump of a finished single-window capture decodes to the samples around its trigger. -/
theorem done_decodes {a t : ℕ}
    (harm : Core.LastArm t₀.capture.core (Capture.coreInp t₀.capture (captureInp t₀ ev)) a (clkEdges ev t))
    (hone : (Capture.run t₀.capture (captureInp t₀ ev) a).csr.windowsQ = 1)
    (hdone : (run t₀ ev t).capture.core.st = .done) (hfit : p.rleEn = true → p.depthLog2 ≤ p.probeW) :
    (run t₀ ev t).capture.core.Rests ∧ ∃ cap d u v k,
      decodeDrain (parseAll (run t₀ ev t).capture.core.dump) p.probeW
        (Capture.run t₀.capture (captureInp t₀ ev) a).csr.pretrigQ.toNat = .ok cap ∧
      Capture.TimeOrdered t₀.capture (captureInp t₀ ev) a d u v k cap := by
  rw [capture_run] at hdone ⊢
  obtain ⟨hpark, d, honly⟩ := Capture.onlyWindow_of_done harm hone hdone
  obtain ⟨u, v, k, hordered⟩ := honly.timeOrdered harm hfit
  exact ⟨Or.inr hpark, _, d, u, v, k, decodeDrain_dump _ _, hordered⟩

/-- The host exports what the probes did. When a capture of one window is done, in words that drain
intact, the host asks for a `DRAIN`; with clocks that tick and a host that takes bytes the engine
comes back to the hunt, and what it has sent decodes, with the pretrigger count of the arm, to the
samples of successive store ticks of the capture domain, the trigger at `trig_pos`. -/
theorem window_exported (t₀ : Transport p) (ev : ℕ → TransportEvent p)
    (hclk : Recurs fun n => (ev n).clk = true)
    (htx : Recurs fun n => (ev n).xclk = true ∧ (ev n).txReady = true) {a t n : ℕ} (hle : t ≤ n)
    (harm : Core.LastArm t₀.capture.core (Capture.coreInp t₀.capture (captureInp t₀ ev)) a (clkEdges ev t))
    (hone : (Capture.run t₀.capture (captureInp t₀ ev) a).csr.windowsQ = 1)
    (hdone : (run t₀ ev t).capture.core.st = .done) (hhunt : (run t₀ ev t).drain.st = .hunt)
    (hwhole : (run t₀ ev t).capture.core.Whole) (hfit : p.rleEn = true → p.depthLog2 ≤ p.probeW)
    (hreq : (history t₀ ev n).received = (history t₀ ev t).received ++ Drain.drainReq) :
    ∃ m bytes cap d u v k, n ≤ m ∧ (run t₀ ev m).drain.st = .hunt ∧
      (history t₀ ev m).received = (history t₀ ev n).received ∧
      (history t₀ ev m).emitted = (history t₀ ev t).emitted ++ bytes ∧
      decodeDrain (parseAll bytes) p.probeW
        (Capture.run t₀.capture (captureInp t₀ ev) a).csr.pretrigQ.toNat = .ok cap ∧
      Capture.TimeOrdered t₀.capture (captureInp t₀ ev) a d u v k cap := by
  obtain ⟨hrest, cap, d, u, v, k, hcap, hordered⟩ := done_decodes harm hone hdone hfit
  obtain ⟨m, bytes, hm, hst, hrec, hsent, hdump⟩ := drain_arrives hclk htx hle hhunt hrest hreq
  refine ⟨m, bytes, cap, d, u, v, k, hm, hst, hrec, hsent, ?_, hordered⟩
  rw [hdump.mpr hwhole]
  exact hcap

/-! ### A capture of zeros -/

/-- `build_frame(WRITE_CSR)` for an arm. -/
def armReq : List Byte := frameBytes scopeOpWriteCsr [csrCtrl, 0, 0, 0, 1]

/-- An arm, then a `DRAIN` at event 280, with `trig_ext_i` always high and one clock. -/
def armEv (n : ℕ) : TransportEvent oneBit where
  xclk := true
  clk := true
  rxData := if n < 280 then armReq.getD n 0 else Drain.drainReq.getD (n - 280) 0
  rxValid := decide (n < 12 ∨ 280 ≤ n ∧ n < 287)
  txReady := true
  probe := 0
  trigExtI := true
  cmdRgraySel := 0
  cmdWgraySel := 0
  rspRgraySel := 0
  rspWgraySel := 0

theorem armEv_done : let t := run (blank oneBit) armEv 280
    t.capture.core.st = .done ∧ t.capture.core.windowsQ = 1 ∧ t.drain.st = .hunt := by decide +kernel

/-- The run has an arm, of one window. -/
theorem exists_arm {t₀ : Transport p} {ev : ℕ → TransportEvent p} {n : ℕ}
    (hdone : (run t₀ ev n).capture.core.st = .done) (hone : (run t₀ ev n).capture.core.windowsQ = 1) :
    ∃ a, Core.LastArm t₀.capture.core (Capture.coreInp t₀.capture (captureInp t₀ ev)) a (clkEdges ev n) ∧
      (Capture.run t₀.capture (captureInp t₀ ev) a).csr.windowsQ = 1 := by
  rw [capture_run] at hdone hone
  obtain ⟨a, ha⟩ := Capture.lastArm_of_busy (show Capture.stAt t₀.capture (captureInp t₀ ev) _ ≠ .idle by
    rw [Capture.stAt, hdone]
    decide)
  exact ⟨a, ha, by rw [← Capture.windowsQ_armed ha, hone]⟩

theorem armEv_exported : ∃ a m bytes cap d u v k, 287 ≤ m ∧
    (run (blank oneBit) armEv m).drain.st = .hunt ∧
    (history (blank oneBit) armEv m).received = (history (blank oneBit) armEv 287).received ∧
    (history (blank oneBit) armEv m).emitted = (history (blank oneBit) armEv 280).emitted ++ bytes ∧
    decodeDrain (parseAll bytes) 1 (Capture.run (blank oneBit).capture
      (captureInp (blank oneBit) armEv) a).csr.pretrigQ.toNat = .ok cap ∧
    Capture.TimeOrdered (blank oneBit).capture (captureInp (blank oneBit) armEv) a d u v k cap := by
  obtain ⟨hdone, hwin, hhunt⟩ := armEv_done
  obtain ⟨a, ha, hone⟩ := exists_arm hdone hwin
  exact ⟨a, window_exported (blank oneBit) armEv (fun n => ⟨n, le_rfl, rfl⟩)
    (fun n => ⟨n, le_rfl, rfl, rfl⟩) (show 280 ≤ 287 by decide) ha hone hdone hhunt (Or.inl (by decide))
    (fun h => absurd h (by decide)) (by decide +kernel)⟩

end Transport

end FpgaScope
