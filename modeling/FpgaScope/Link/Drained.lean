import FpgaScope.Capture.Run
import FpgaScope.Engine.Conform
import FpgaScope.Link.Dumping

/-! One `DRAIN` of a parked core, from the first byte of the request to the hunt for the
next one. The bytes are the dump of the core unless a word of 513 bits loses its first
lane; with queues and clocks that keep moving the dump comes to its end. -/

namespace FpgaScope.Link

open Protocol Clocked

variable {p : Params} {ℓ₀ : Link p} {ev : ℕ → LinkEvent p} {ℓ : Link p} {e : LinkEvent p}
  {H : History} {C : List (CsrOp × BitVec 32)} {c₀ : Capture p}

/-! ### The dump -/

theorem Dumping.start (h₀ : ℓ₀.Quiet) : Dumping ℓ₀.capture ℓ₀ .empty [] where
  phase := .idle h₀.cmdQ h₀.idle h₀.rspQ rfl rfl
  serves := .start h₀.hunt
  told := rfl
  view := .start _
  loaded := fun h => by rw [h₀.idle] at h; cases h

/-- The answer due to the request. -/
theorem due_sent {ρ : ℕ → BitVec 32} (h : parse H.received = ([drainRequest], [])) :
    (H.due p ρ).sent = (Protocol.drain p (laneBytes p) ρ).sent := by
  rw [History.due, h]
  simp only [answer, respond_drains ρ drainRequest_drains, List.append_nil]

theorem asks_of_parse (h : parse H.received = ([drainRequest], [])) : H.Asks := by
  rw [History.Asks, h]

theorem Dumping.emitted_prefix (h : Dumping c₀ ℓ H C) (hreq : parse H.received = ([drainRequest], []))
    (hw : c₀.core.Whole) : H.emitted <+: c₀.core.dump := by
  rw [← c₀.drain_sent_iff.mpr hw, ← due_sent hreq]
  exact h.serves.emitted_prefix

/-- Back in a receiving state, the engine hunts and the answer is complete. -/
theorem Dumping.settled (h : Dumping c₀ ℓ H C) (hreq : parse H.received = ([drainRequest], []))
    (hrx : ℓ.drain.rxReady = true) :
    ℓ.drain.st = .hunt ∧ (H.emitted = c₀.core.dump ↔ c₀.core.Whole) := by
  refine ⟨?_, ?_⟩
  · cases h.serves with
    | answering hx => rw [hrx] at hx; cases hx
    | receiving hr =>
      rw [hreq] at hr
      cases hr with
      | hunt h => exact h
      | sync1 _ _ hlast => cases hlast
      | synced hl => cases hl
  · rw [(h.serves.settled hrx).1, due_sent hreq, c₀.drain_sent_iff]

/-- A host that has asked for no more later had not before. -/
theorem asks_mono {m n : ℕ} (h : m ≤ n) (hreq : (history ℓ₀ ev n).Asks) : (history ℓ₀ ev m).Asks := by
  obtain ⟨t, ht⟩ := (execution ℓ₀ ev).received_mono m n h
  rw [History.Asks, ← ht, parse_append] at hreq
  exact (List.prefix_append _ _).trans hreq

theorem dumping_run (h₀ : ℓ₀.Quiet) {n : ℕ} (hreq : (history ℓ₀ ev n).Asks)
    (hpark : ∀ k ≤ n, ℓ₀.capture.core.Parked (run ℓ₀ ev k).capture.core) :
    ∀ k ≤ n, Dumping ℓ₀.capture (run ℓ₀ ev k) (history ℓ₀ ev k) (calls ℓ₀ ev k) := by
  intro k
  induction k with
  | zero => exact fun _ => .start h₀
  | succ k ih =>
    intro hk
    exact (ih (by omega)).step (hpark k (by omega)) (hpark (k + 1) hk) (asks_mono (by omega) hreq)

/-! ### Progress -/

/-- The clocks tick and the queues and the host move again and again. -/
structure Fair (ev : ℕ → LinkEvent p) : Prop where
  tx : Recurs fun n => (ev n).xclk = true ∧ (ev n).txReady = true
  cmdIn : Recurs fun n => (ev n).xclk = true ∧ (ev n).cmdWrReady = true
  cmdOut : Recurs fun n => (ev n).clk = true ∧ (ev n).cmdRdValid = true
  rspIn : Recurs fun n => (ev n).clk = true ∧ (ev n).rspWrReady = true
  rspOut : Recurs fun n => (ev n).xclk = true ∧ (ev n).rspRdValid = true

/-- A command in the queue is loaded. -/
theorem sent_loads (hf : Fair ev) {n : ℕ} {x : BitVec 41}
    (hw : ∀ k, n ≤ k → (run ℓ₀ ev k).drain.st = .csrWait) (hc : (run ℓ₀ ev n).cmdQ = [x])
    (hs : (run ℓ₀ ev n).servicer.sv = .idle) : ∃ m, n ≤ m ∧ (run ℓ₀ ev m).servicer.sv = .exec := by
  have hlast : ∀ k, n ≤ k → ¬ ((ev k).clk = true ∧ (ev k).cmdRdValid = true) →
      (run ℓ₀ ev k).cmdQ = [x] ∧ (run ℓ₀ ev k).servicer.sv = .idle →
      (run ℓ₀ ev (k + 1)).cmdQ = [x] ∧ (run ℓ₀ ev (k + 1)).servicer.sv = .idle := by
    rintro k hk hno ⟨hck, hsk⟩
    have hpop : (run ℓ₀ ev k).cmdPopped (ev k) = none := by
      rw [cmdPopped, cmdShown]
      split
      · rename_i hclk
        split
        · rename_i hvis
          exact absurd ⟨(Bool.and_eq_true_iff.mp hclk).1, hvis⟩ hno
        · rfl
      · rfl
    obtain ⟨-, -, hkeep, -⟩ := servicer_idle (e := ev k) hsk
    change ((run ℓ₀ ev k).step (ev k)).cmdQ = _ ∧ ((run ℓ₀ ev k).step (ev k)).servicer.sv = _
    rw [step_cmdQ, hpop, hck, issued_wait (hw k hk), hkeep hpop]
    exact ⟨rfl, hsk⟩
  obtain ⟨m, hm, ⟨hk, hv⟩, hcm, hsm⟩ := hf.cmdOut.reaches ⟨hc, hs⟩ hlast
  refine ⟨m + 1, by omega, ?_⟩
  change ((run ℓ₀ ev m).step (ev m)).servicer.sv = _
  rw [step_servicer, hk, cmdShown, hv, hcm, Servicer.step, hsm]
  rfl

/-- A loaded command is executed. -/
theorem exec_strobes (hf : Fair ev) {n : ℕ} (hs : (run ℓ₀ ev n).servicer.sv = .exec) :
    ∃ m, n ≤ m ∧ (run ℓ₀ ev m).servicer.sv = .push := by
  have hclk : Recurs fun n => (ev n).clk = true := fun n => by
    obtain ⟨m, hm, hk, -⟩ := hf.cmdOut n
    exact ⟨m, hm, hk⟩
  have hlast : ∀ k, n ≤ k → ¬ (ev k).clk = true → (run ℓ₀ ev k).servicer.sv = .exec →
      (run ℓ₀ ev (k + 1)).servicer.sv = .exec := by
    intro k _ hno hsk
    change ((run ℓ₀ ev k).step (ev k)).servicer.sv = _
    rw [step_servicer, if_neg hno, hsk]
  obtain ⟨m, hm, hk, hsm⟩ := hclk.reaches hs hlast
  refine ⟨m + 1, by omega, ?_⟩
  change ((run ℓ₀ ev m).step (ev m)).servicer.sv = _
  rw [step_servicer, hk, if_pos rfl, Servicer.step_exec hsm]

/-- A result enters the response queue. -/
theorem push_returns (hf : Fair ev) {n : ℕ} (hs : (run ℓ₀ ev n).servicer.sv = .push) :
    ∃ m, n ≤ m ∧ (run ℓ₀ ev m).rspQ ≠ [] := by
  have hlast : ∀ k, n ≤ k → ¬ ((ev k).clk = true ∧ (ev k).rspWrReady = true) →
      (run ℓ₀ ev k).servicer.sv = .push → (run ℓ₀ ev (k + 1)).servicer.sv = .push := by
    intro k _ hno hsk
    change ((run ℓ₀ ev k).step (ev k)).servicer.sv = _
    rw [step_servicer, Servicer.step, hsk]
    dsimp only
    split
    · rename_i hclk
      rw [if_neg (fun hx => hno ⟨hclk, hx⟩), hsk]
    · exact hsk
  obtain ⟨m, hm, ⟨hk, hr⟩, hsm⟩ := hf.rspIn.reaches hs hlast
  refine ⟨m + 1, by omega, ?_⟩
  change ((run ℓ₀ ev m).step (ev m)).rspQ ≠ _
  rw [step_rspQ, rspPushed, hk, Servicer.rspWrValid, hsm, hr]
  simp

/-- An engine that waits for a reply has one coming. -/
theorem reply_comes (h₀ : ℓ₀.Quiet) (hf : Fair ev) {n : ℕ}
    (hw : ∀ k, n ≤ k → (run ℓ₀ ev k).drain.st = .csrWait) : ∃ m, n ≤ m ∧ (run ℓ₀ ev m).rspQ ≠ [] := by
  have hpush : ∀ {k}, n ≤ k → (run ℓ₀ ev k).servicer.sv = .push →
      ∃ m, n ≤ m ∧ (run ℓ₀ ev m).rspQ ≠ [] := fun hk hs => by
    obtain ⟨m, hm, hr⟩ := push_returns hf hs
    exact ⟨m, hk.trans hm, hr⟩
  have hexec : ∀ {k}, n ≤ k → (run ℓ₀ ev k).servicer.sv = .exec →
      ∃ m, n ≤ m ∧ (run ℓ₀ ev m).rspQ ≠ [] := fun hk hs => by
    obtain ⟨m, hm, hs'⟩ := exec_strobes hf hs
    exact hpush (hk.trans hm) hs'
  have e := execution ℓ₀ ev
  cases (phase_run h₀ n : (run ℓ₀ ev n).Phase _ _ _) with
  | sent _ hc hs =>
    obtain ⟨m, hm, hs'⟩ := sent_loads hf hw hc hs
    exact hexec hm hs'
  | exec _ _ hs => exact hexec le_rfl hs
  | push _ _ hs => exact hpush le_rfl hs
  | back _ _ _ hr => exact ⟨n, le_rfl, by rw [hr]; exact List.cons_ne_nil _ _⟩
  | idle _ _ _ hO hR =>
    -- impossible: the flow of the engine still has a reply to take
    exfalso
    obtain ⟨ρ, hρ⟩ := e.exists_serves fun _ => .start h₀.hunt
    cases (hρ n).2 with
    | receiving h =>
      have hrx := h.rxReady
      rw [Drain.rxReady, hw n le_rfl] at hrx
      cases hrx
    | answering _ _ hflow hst _ hops =>
      have howed := hflow.owed (by rw [hst]; decide)
      have hlen := congrArg List.length hops
      have hO' := congrArg List.length hO
      have hR' := congrArg List.length hR
      rw [Drain.rspReady, hw n le_rfl, Bool.toNat, beq_self_eq_true, cond_true] at howed
      rw [List.length_append] at hlen
      rw [List.length_map] at hO' hR'
      omega

/-- Every wait of the engine ends. -/
theorem moves (h₀ : ℓ₀.Quiet) (hf : Fair ev) (n : ℕ) (hrx : (run ℓ₀ ev n).drain.rxReady = false) :
    ∃ m, n ≤ m ∧ ∃ i, (run ℓ₀ ev m).engineIn (ev m) = some i ∧ (run ℓ₀ ev m).drain.stalls i = false := by
  by_contra hno
  have hstall : ∀ k, n ≤ k → ∀ i, (run ℓ₀ ev k).engineIn (ev k) = some i →
      (run ℓ₀ ev k).drain.stalls i = true := fun k hk i hi => by
    by_contra hx
    exact hno ⟨k, hk, i, hi, Bool.eq_false_iff.mpr hx⟩
  have hsame : ∀ k, n ≤ k →
      (run ℓ₀ ev k).drain = (run ℓ₀ ev n).drain ∧ history ℓ₀ ev k = history ℓ₀ ev n := by
    intro k hk
    induction k, hk using Nat.le_induction with
    | base => exact ⟨rfl, rfl⟩
    | succ k hk ih =>
      obtain ⟨hd, hH⟩ := (execution ℓ₀ ev).unchanged (hstall k hk)
      exact ⟨hd.trans ih.1, hH.trans ih.2⟩
  have hedge : ∀ k, n ≤ k → (ev k).xclk = true →
      (run ℓ₀ ev n).drain.stalls ((run ℓ₀ ev k).drainIn (ev k)) = true := fun k hk hx => by
    rw [← (hsame k hk).1]
    exact hstall k hk _ (if_pos hx)
  unfold Drain.stalls Drain.txValid Drain.cmdValid Drain.rspReady at hedge
  cases hst : (run ℓ₀ ev n).drain.st with
  | hunt | sync1 | rcmd | rlenh | rlenl | rpay | rcrch | rcrcl =>
    rw [Drain.rxReady, hst] at hrx
    cases hrx
  | emit =>
    obtain ⟨m, hm, hx, hr⟩ := hf.tx n
    have hm' := hedge m hm hx
    rw [hst, drainIn, hr] at hm'
    cases hm'
  | csrPush =>
    obtain ⟨m, hm, hx, hr⟩ := hf.cmdIn n
    have hm' := hedge m hm hx
    rw [hst, drainIn, hr] at hm'
    cases hm'
  | csrWait =>
    obtain ⟨m, hm, hne⟩ := reply_comes h₀ hf fun k hk => by rw [(hsame k hk).1, hst]
    have hlast : ∀ k, m ≤ k → ¬ ((ev k).xclk = true ∧ (ev k).rspRdValid = true) →
        (run ℓ₀ ev k).rspQ ≠ [] → (run ℓ₀ ev (k + 1)).rspQ ≠ [] := by
      intro k hk _ hq
      -- the engine takes nothing, or its history would have grown
      have hrep := congrArg History.replies
        ((hsame (k + 1) (by omega)).2.trans (hsame k (by omega)).2.symm)
      rw [history, History.next_replies] at hrep
      have hnone : (run ℓ₀ ev k).latched (ev k) = none :=
        Option.toList_eq_nil_iff.mp (List.append_right_eq_self.mp hrep)
      change ((run ℓ₀ ev k).step (ev k)).rspQ ≠ _
      rw [step_rspQ, hnone]
      exact fun hx => hq (List.append_eq_nil_iff.mp hx).1
    obtain ⟨m', hm', ⟨hx, hr⟩, hq'⟩ := hf.rspOut.reaches hne hlast
    have hend := hedge m' (hm.trans hm') hx
    rw [hst, drainIn, rspShown, hr] at hend
    cases hq : (run ℓ₀ ev m').rspQ with
    | nil => exact hq' hq
    | cons y ys => rw [hq] at hend; cases hend
  | _ =>
    obtain ⟨m, hm, hx, -⟩ := hf.tx n
    have hm' := hedge m hm hx
    rw [hst] at hm'
    cases hm'

/-- The engine comes back to receiving. -/
theorem returns (h₀ : ℓ₀.Quiet) (hf : Fair ev) (n : ℕ) : ∃ m, n ≤ m ∧
    (run ℓ₀ ev m).drain.rxReady = true ∧ (history ℓ₀ ev m).received = (history ℓ₀ ev n).received :=
  (execution ℓ₀ ev).receives (fun _ => .start h₀.hunt) (moves h₀ hf) n

/-- One `DRAIN` of a parked core, under any timing of the clocks, the queues and the host.
What is sent is part of the dump; in the hunt for the next request it is the whole dump;
and if everything keeps moving that hunt is reached. The bytes are those of the dump exactly
when every stored word is whole: always up to 512 stored bits. -/
theorem drain_dumps (h₀ : ℓ₀.Quiet) (n : ℕ)
    (hreq : parse (history ℓ₀ ev n).received = ([drainRequest], []))
    (hpark : ∀ k ≤ n, ℓ₀.capture.core.Parked (run ℓ₀ ev k).capture.core) :
    let core := ℓ₀.capture.core
    (core.Whole → (history ℓ₀ ev n).emitted <+: core.dump) ∧
    ((run ℓ₀ ev n).drain.rxReady = true →
      (run ℓ₀ ev n).drain.st = .hunt ∧ ((history ℓ₀ ev n).emitted = core.dump ↔ core.Whole)) ∧
    (Fair ev → ∃ m, n ≤ m ∧ (run ℓ₀ ev m).drain.rxReady = true ∧
      (history ℓ₀ ev m).received = (history ℓ₀ ev n).received ∧
      ((∀ k ≤ m, core.Parked (run ℓ₀ ev k).capture.core) →
        (run ℓ₀ ev m).drain.st = .hunt ∧
          ((history ℓ₀ ev m).emitted = core.dump ↔ core.Whole))) := by
  intro core
  have h := dumping_run h₀ (asks_of_parse hreq) hpark n le_rfl
  refine ⟨h.emitted_prefix hreq, h.settled hreq, fun hf => ?_⟩
  obtain ⟨m, hm, hrx, hrec⟩ := returns h₀ hf n
  rw [← hrec] at hreq
  exact ⟨m, hm, hrx, hrec, fun hpark' =>
    (dumping_run h₀ (asks_of_parse hreq) hpark' m le_rfl).settled hreq hrx⟩

/-! ### A core at rest -/

/-- The bus stays away from `CTRL`. -/
theorem Dumping.silent (h : Dumping c₀ ℓ H C) (hreq : H.Asks) :
    ℓ.servicer.bus.wrCtrl = false := by
  by_cases hs : ℓ.servicer.sv = .exec
  · rw [bus_strobe hs]
    exact (Csr.View.harmless (h.op_at hreq hs)).decode.1
  · rw [CsrBus.wrCtrl, (bus_quiet hs).1, Bool.false_and]

/-- Nothing in a `DRAIN` wakes a core at rest. -/
theorem parked_run (h₀ : ℓ₀.Quiet) (hrest : ℓ₀.capture.core.Rests) {n : ℕ}
    (hreq : (history ℓ₀ ev n).Asks) : ∀ k ≤ n, ℓ₀.capture.core.Parked (run ℓ₀ ev k).capture.core := by
  have hboth : ∀ k ≤ n, ∀ j ≤ k, ℓ₀.capture.core.Parked (run ℓ₀ ev j).capture.core ∧
      (run ℓ₀ ev j).capture.core.Rests := by
    intro k
    induction k with
    | zero =>
      intro _ j hj
      obtain rfl : j = 0 := by omega
      exact ⟨.refl _, hrest⟩
    | succ k ih =>
      intro hk j hj
      have hprev := ih (by omega)
      rcases Nat.lt_or_eq_of_le hj with hlt | rfl
      · exact hprev j (by omega)
      have hasks := asks_mono (show k ≤ n by omega) hreq
      have hctrl := (dumping_run h₀ hasks (fun j hj => (hprev j hj).1) k le_rfl).silent hasks
      obtain ⟨hpark, hr⟩ := hprev k le_rfl
      change ℓ₀.capture.core.Parked ((run ℓ₀ ev k).step (ev k)).capture.core ∧
        ((run ℓ₀ ev k).step (ev k)).capture.core.Rests
      rw [step_capture]
      split
      · have harm : (run ℓ₀ ev k).servicer.bus.arm = false := by
          rw [CsrBus.arm, hctrl, Bool.false_and]
        have hdis : (run ℓ₀ ev k).servicer.bus.disarm = false := by
          rw [CsrBus.disarm, hctrl, Bool.false_and]
        obtain ⟨hr', hp'⟩ := hr.step
          (i := (run ℓ₀ ev k).capture.coreIn ((run ℓ₀ ev k).captureIn (ev k))) harm hdis
        exact ⟨hpark.trans hp', hr'⟩
      · exact ⟨hpark, hr⟩
  exact fun k hk => (hboth k hk k le_rfl).1

/-! ### The widest design -/

open Drain (widest drainReq)

/-- A quiet link with a buffer of zeros but for bit 512 of word 0. -/
def topBitLink (b : Bool) : Link widest where
  drain := Drain.blank widest
  cmdQ := []
  servicer := .reset
  rspQ := []
  capture :=
    { Capture.blank widest with
      core.uBuf.mem := fun a => if a = 0 ∧ b = true then BitVec.ofNat _ (2 ^ 512) else 0 }

/-- The request byte by byte, and both clocks and all queues always ready. -/
def promptEv (n : ℕ) : LinkEvent widest where
  xclk := true
  clk := true
  rxData := drainReq.getD n 0
  rxValid := decide (n < 7)
  txReady := true
  probe := 0
  trigExtI := false
  cmdWrReady := true
  cmdRdValid := true
  cmdRdData := 0
  rspWrReady := true
  rspRdValid := true
  rspRdData := 0

theorem promptEv_fair : Fair promptEv where
  tx := fun n => ⟨n, le_rfl, rfl, rfl⟩
  cmdIn := fun n => ⟨n, le_rfl, rfl, rfl⟩
  cmdOut := fun n => ⟨n, le_rfl, rfl, rfl⟩
  rspIn := fun n => ⟨n, le_rfl, rfl, rfl⟩
  rspOut := fun n => ⟨n, le_rfl, rfl, rfl⟩

theorem topBitLink_quiet (b : Bool) : (topBitLink b).Quiet := ⟨rfl, rfl, rfl, rfl⟩

theorem promptEv_received : ∀ b, (history (topBitLink b) promptEv 7).received = drainReq := by
  decide +kernel

theorem promptEv_parse (b : Bool) : parse (history (topBitLink b) promptEv 7).received =
    ([drainRequest], []) := by
  rw [promptEv_received, Drain.parse_drainReq]

theorem topBitLink_parked (b : Bool) {n : ℕ}
    (hreq : parse (history (topBitLink b) promptEv n).received = ([drainRequest], [])) :
    ∀ k ≤ n, (topBitLink b).capture.core.Parked (run (topBitLink b) promptEv k).capture.core :=
  parked_run (topBitLink_quiet b) (Or.inl rfl) (asks_of_parse hreq)

theorem zeros_whole : (topBitLink false).capture.core.Whole := by
  refine Or.inr fun a => ?_
  have hz : (topBitLink false).capture.core.uBuf.mem a = BitVec.ofNat widest.storeW 0 :=
    if_neg (by simp)
  rw [hz]
  apply BitVec.eq_of_getLsbD_eq
  intro i hi
  rw [getLane, getLane, BitVec.getLsbD_extractLsb', BitVec.getLsbD_extractLsb', BitVec.getLsbD_zero,
    BitVec.getLsbD_zero]

/-- With bit 512 clear the dump is complete. -/
theorem zeros_dumped : ∃ m, 7 ≤ m ∧ (run (topBitLink false) promptEv m).drain.st = .hunt ∧
    (history (topBitLink false) promptEv m).emitted = (topBitLink false).capture.core.dump := by
  have h₀ := topBitLink_quiet false
  have h7 := promptEv_parse false
  obtain ⟨-, -, hback⟩ := drain_dumps h₀ 7 h7 (topBitLink_parked false h7)
  obtain ⟨m, hm, -, hrec, hdone⟩ := hback promptEv_fair
  rw [← hrec] at h7
  obtain ⟨hst, hsent⟩ := hdone (topBitLink_parked false h7)
  exact ⟨m, hm, hst, hsent.mpr zeros_whole⟩

/-- With bit 512 set the dump is wrong. -/
theorem topBit_not_dumped : ¬ ∀ n,
    parse (history (topBitLink true) promptEv n).received = ([drainRequest], []) →
    (run (topBitLink true) promptEv n).drain.rxReady = true →
    (history (topBitLink true) promptEv n).emitted = (topBitLink true).capture.core.dump := by
  intro hall
  have h₀ := topBitLink_quiet true
  have h7 := promptEv_parse true
  obtain ⟨m, -, hrx, hrec⟩ := returns h₀ promptEv_fair 7
  rw [← hrec] at h7
  have h := dumping_run h₀ (asks_of_parse h7) (topBitLink_parked true h7) m le_rfl
  rcases (h.settled h7 hrx).2.mp (hall m h7 hrx) with hw | hw
  · exact absurd hw (by decide)
  · exact absurd (hw 0) (by decide +kernel)

end FpgaScope.Link
