import FpgaScope.Board.Export
import FpgaScope.Capture.Sequencer

/-! What the script catches. On a board fresh from reset every cycle is a store tick and only the
comparator that the script sets up triggers: the exported list is the probe cycle by cycle, and
at `trig_pos` probe bit 0, `cs_n`, has just fallen. -/

namespace FpgaScope

open Clocked Capture Console Host

variable {p : Params}

/-! ### The accesses of the script -/

/-- Neither a write to `SMPL_CTRL` nor a force strobe. -/
def Benign : ByteAccess → Prop
  | .write a d => selScope a = true → regWord a ≠ csrSmplCtrl ∧ (regWord a = csrCtrl → d.getLsbD 2 = false)
  | .read _ => True

theorem rd32_only {Q : ByteAccess → Prop} {a : BitVec 32} (h : Q (.read a)) : (rd32 a).Only Q :=
  ⟨h, fun _ => trivial⟩

theorem wr32_only {Q : ByteAccess → Prop} {a d : BitVec 32} (h : Q (.write a d)) : (wr32 a d).Only Q :=
  ⟨h, trivial⟩

theorem burst_benign (len : ℤ) : ∀ x ∈ burst len, Benign (.write x.1 x.2) := by
  simp only [burst, List.forall_mem_cons]
  exact ⟨fun h => absurd h (by decide), fun h => absurd h (by decide), fun h => absurd h (by decide),
    fun x hx => by cases hx⟩

theorem setup_benign (pretrig : ℤ) : ∀ x ∈ setup pretrig, Benign (.write x.1 x.2) := by
  have hno : ∀ a d, regWord a ≠ csrSmplCtrl → regWord a ≠ csrCtrl → Benign (.write a d) :=
    fun a d hs hc _ => ⟨hs, fun h => absurd h hc⟩
  simp only [setup, List.forall_mem_cons]
  refine ⟨?_, ?_, ?_, ?_, ?_, ?_, ?_, ?_, ?_, fun x hx => by cases hx⟩ <;> exact hno _ _ (by decide) (by decide)

theorem pulse_benign (len : ℤ) (i st : ℕ) : (pulse len i st).Only Benign := by
  induction i generalizing st with
  | zero => trivial
  | succ i ih =>
    refine .bind (rd32_only trivial) fun st => ?_
    split
    · trivial
    · exact .bind (wrAll_only (burst_benign len)) fun _ => ih st

theorem pollDone_benign (i : ℕ) (x : ℕ × Bool) : (pollDone i x).Only Benign := by
  induction i generalizing x with
  | zero => trivial
  | succ i ih =>
    obtain ⟨st, done⟩ := x
    cases done with
    | true => trivial
    | false =>
      refine Script.Only.bind (rd32_only trivial) fun st => ?_
      split
      · trivial
      · exact ih (st, false)

theorem drain_benign (i : ℕ) : (drain i).Only Benign := by
  induction i with
  | zero => trivial
  | succ i ih =>
    exact .bind (rd32_only trivial) fun _ => .bind (rd32_only trivial) fun _ => .bind ih fun _ => trivial

theorem dump_benign (pretrig : ℤ) (hwcfg depth st : ℕ) : (dump pretrig hwcfg depth st).Only Benign :=
  .bind (rd32_only trivial) fun _ => .bind (rd32_only trivial) fun _ => .bind (rd32_only trivial) fun _ =>
    .bind (wr32_only fun _ => ⟨by decide, fun h => absurd h (by decide)⟩) fun _ => .bind (drain_benign depth) fun _ => trivial

theorem scopeCapture_benign (pretrig len : ℤ) : (scopeCapture pretrig len).Only Benign := by
  refine .bind (rd32_only trivial) fun id => ?_
  split
  · trivial
  · refine .bind (rd32_only trivial) fun hwcfg => ?_
    refine .bind (wr32_only fun _ => ⟨by decide, fun _ => by decide⟩) fun _ => ?_
    refine .bind (wrAll_only (setup_benign pretrig)) fun _ => .bind (rd32_only trivial) fun _ => ?_
    refine .bind (wrAll_only (burst_benign len)) fun _ => .bind (wr32_only fun _ => ⟨by decide, fun _ => by decide⟩) fun _ => ?_
    refine .bind (waitArmed_only trivial _) fun _ => .bind (pulse_benign len _ _) fun x => ?_
    refine .bind (pollDone_benign _ x) fun x => ?_
    obtain ⟨st, done⟩ := x
    cases done with
    | true => exact dump_benign pretrig hwcfg _ st
    | false => trivial

section
variable {c₀ : Capture p} {inp : ℕ → CaptureIn p} {b : BusSignals (BitVec 32) (BitVec 32)}

theorem OnWindow.benign (w : OnWindow c₀ inp b) (h : ∀ n x, b.issued n = some x → Benign x) :
    SmplCtrlZero inp ∧ OwnTriggerOnly inp := by
  have hwrite : ∀ n, (inp n).bus.write = true → (inp n).bus.addr ≠ csrSmplCtrl ∧
      ((inp n).bus.addr = csrCtrl → (inp n).bus.wdata.getLsbD 2 = false) := by
    intro n hw
    cases hx : b.issued n with
    | none =>
      rw [(w.quiet n hx).1] at hw
      cases hw
    | some x =>
      cases x with
      | write a d =>
        rw [w.write n a d hx] at hw ⊢
        exact h n _ hx hw
      | read a =>
        obtain ⟨d, hd⟩ := w.read n a hx
        rw [hd] at hw
        cases hw
  refine ⟨fun n hw ha => absurd ha (hwrite n hw).1, fun n => ⟨?_, w.ext n⟩⟩
  by_contra hforce
  simp only [CsrBus.forceStrobe, CsrBus.wrCtrl, Bool.not_eq_false, Bool.and_eq_true, beq_iff_eq] at hforce
  obtain ⟨⟨hw, ha⟩, hbit⟩ := hforce
  rw [(hwrite n hw).2 ha] at hbit
  cases hbit

end

/-! ### The comparator -/

theorem configured_combine (c : Csr p) (pretrig : ℤ) : (configured c pretrig).trigCombineQ = 1 := by
  rw [configured_eq, setup]
  simp [Csr.writeCfg, writeBus, regWords, csrTrigCombine]

theorem configured_cmp (c : Csr p) (pretrig : ℤ) (f : Fin 4) : (configured c pretrig).cmpQ f 0 =
    if f = cmpFieldEdgeMask then setLane (c.cmpQ f 0) 0 (1 &&& Csr.laneWmask p 0)
    else if f = cmpFieldEdgePol then setLane (c.cmpQ f 0) 0 (0 &&& Csr.laneWmask p 0)
    else c.cmpQ f 0 := by
  have hpos : p.probeW ≠ 0 := by
    have := p.probeW_pos
    omega
  rw [configured_eq, setup]
  fin_cases f <;> simp [Csr.writeCfg, writeBus, regWords, CsrBus.isLaneAddr, CsrBus.laneIdx, csrCmpLaneBase,
    csrCmpLaneWords, csrCmpSel, cmpFieldEdgeMask, cmpFieldEdgePol, hpos]

/-- On a fresh scope the comparator that the script sets up hits when probe bit 0 has fallen. -/
theorem hit_falls (hW : p.probeW = 32) (pretrig : ℤ) {x y : BitVec p.probeW}
    (h : (configured (Csr.reset p) pretrig).trigCfg.hit 0 x y = true) :
    y.getLsbD 0 = true ∧ x.getLsbD 0 = false := by
  have hmask : Csr.laneWmask p 0 = BitVec.allOnes 32 := by simp [Csr.laneWmask, hW]
  have hedge : ∀ i < p.probeW, ((configured (Csr.reset p) pretrig).trigCfg.cmpEdgeMask 0).getLsbD i = decide (i = 0) := by
    intro i hi
    change (((configured (Csr.reset p) pretrig).cmpQ cmpFieldEdgeMask 0).setWidth p.probeW).getLsbD i = _
    have hpad : i < p.padW := by
      unfold Params.padW Params.lanes
      omega
    rw [configured_cmp, if_pos rfl, hmask, BitVec.getLsbD_setWidth, getLsbD_setLane _ _ _ _ hpad,
      if_pos (show i / 32 = 0 by omega), decide_eq_true hi, Bool.true_and, Nat.mod_eq_of_lt (show i < 32 by omega)]
    have hone : ∀ i < 32, ((1 : BitVec 32) &&& BitVec.allOnes 32).getLsbD i = decide (i = 0) := by decide
    exact hone i (by omega)
  have hpol : ((configured (Csr.reset p) pretrig).trigCfg.cmpEdgePol 0).getLsbD 0 = false := by
    change (((configured (Csr.reset p) pretrig).cmpQ cmpFieldEdgePol 0).setWidth p.probeW).getLsbD 0 = _
    have hpad : 0 < p.padW := by
      unfold Params.padW Params.lanes
      omega
    rw [configured_cmp, if_neg (by decide), if_pos rfl, BitVec.getLsbD_setWidth, getLsbD_setLane _ _ _ _ hpad,
      if_pos rfl]
    simp
  generalize (configured (Csr.reset p) pretrig).trigCfg = cfg at h hedge hpol
  have hmask0 : (cfg.cmpEdgeMask 0 == 0) = false := by
    rw [beq_eq_false_iff_ne]
    intro hzero
    have hbit := hedge 0 (by omega)
    rw [hzero] at hbit
    simp at hbit
  simp only [TrigCfg.hit, hmask0, Bool.false_eq_true, ↓reduceIte, Bool.and_eq_true, bne_iff_ne] at h
  obtain ⟨-, hne⟩ := h
  -- some bit of the masked edges is set, and the mask leaves bit 0 only
  obtain ⟨i, hi, hbit⟩ : ∃ i < p.probeW, (cfg.cmpEdgeMask 0 &&& (cfg.cmpEdgePol 0 &&& (~~~y &&& x) |||
      ~~~cfg.cmpEdgePol 0 &&& (y &&& ~~~x))).getLsbD i = true := by
    by_contra hno
    refine hne (BitVec.eq_of_getLsbD_eq fun i hi => ?_)
    rw [Bool.eq_false_iff.mpr fun hset => hno ⟨i, hi, hset⟩]
    simp
  rw [BitVec.getLsbD_and, hedge i hi, Bool.and_eq_true, decide_eq_true_eq] at hbit
  obtain ⟨rfl, hbit⟩ := hbit
  simp only [BitVec.getLsbD_or, BitVec.getLsbD_and, BitVec.getLsbD_not, hpol, hi, decide_true, Bool.true_and,
    Bool.false_and, Bool.false_or, Bool.not_false, Bool.and_eq_true, Bool.not_eq_true'] at hbit
  exact hbit

/-- With `COMBINE` at 1 only comparator 0 makes a stage hit. -/
theorem stageHit_first {W : ℕ} {cfg : TrigCfg W} (hc : cfg.trigCombine = 1) {n : Fin seqStages} {hits : Fin numCmp → Bool}
    (h : cfg.stageHit n hits = true) : hits 0 = true := by
  have hsel : ∀ (n : Fin seqStages) (k : Fin numCmp), cfg.sel n k = true → k = 0 := by
    simp only [TrigCfg.sel, hc]
    decide
  have hand : ∀ n, cfg.andMode n = false := by
    simp only [TrigCfg.andMode, hc]
    decide
  rw [TrigCfg.stageHit, hand n, if_neg (by decide), List.any_eq_true] at h
  obtain ⟨k, -, hk⟩ := h
  rw [Bool.and_eq_true] at hk
  rw [← hsel n k hk.2]
  exact hk.1

/-! ### Runs -/

/-- The probe as the store ticks have it, two cycles late. -/
def seen (inp : ℕ → CaptureIn p) (n : ℕ) : BitVec p.probeW := if n < 2 then 0 else (inp (n - 2)).probe

section
variable {c₀ : Capture p} {inp : ℕ → CaptureIn p}

theorem sampleO_seen (n : ℕ) : (run c₀ inp n).trigger.sampleO = seen inp n := by
  match n with
  | 0 => rfl
  | 1 =>
    change (Trigger.step _ _ _).dly1 = 0
    rw [(Trigger.pipe_step _ _ _).2.1]
    rfl
  | n + 2 => exact sampleO_run c₀ inp n

/-- A stretch of the samples and its trigger, where every cycle is a store tick. -/
theorem cut_seen {xs : List ℕ} {k v d : ℕ} {x : List ℕ × ℕ} (hxs : xs = (List.range d).map fun j => (seen inp j).toNat)
    (h : Cut xs k v x) : ∀ i < x.1.length, x.1[i]? = some (seen inp (k + i)).toNat := by
  intro i hi
  have hlen := congrArg List.length h.contiguous
  rw [List.length_take, List.length_drop, hxs, List.length_map, List.length_range] at hlen
  rw [h.contiguous, hxs, List.getElem?_take_of_lt hi, List.getElem?_drop, List.getElem?_map,
    List.getElem?_range (by omega)]
  rfl

/-- Where every cycle is a store tick the samples are the probe. -/
theorem raw_seen (hz : SmplCtrlZero inp) (n : ℕ) : raw c₀ inp n = (List.range n).map fun j => (seen inp j).toNat := by
  induction n with
  | zero => rfl
  | succ n ih =>
    have hvalid : (rleAt c₀ inp n).inValid = true := sampleEn_run c₀ hz n
    have hsample : (run c₀ inp n).trigger.sampleO = seen inp n := sampleO_seen n
    rw [List.range_succ, List.map_append, ← ih, List.map_singleton, ← hsample]
    exact collect_some (Rle.sampleOf_valid hvalid)

variable (hz : SmplCtrlZero inp) (ho : OwnTriggerOnly inp)
include hz ho

/-- Then a trigger is the sequencer's, in a cycle after an `ARMED` one. -/
theorem seq_of_fire {v : ℕ} (h : (run c₀ inp v).trigFire (inp v) = true) : ∃ m, v = m + 1 ∧
    stAt c₀ inp m = .armed ∧ (run c₀ inp m).trigger.curHit (run c₀ inp m).csr.trigCfg = true := by
  rw [trigFire_eq, trigPend_run c₀ hz, Bool.or_false, Bool.and_eq_true] at h
  have hseq : (run c₀ inp v).trigger.trigSeqQ = true := by
    have htrig : trigAt c₀ inp v = (run c₀ inp v).trigger.trigSeqQ := by
      simp [trigAt, trig, Trigger.trig, trigIn, forcePend_run c₀ ho v, (ho v).2]
    rw [← htrig, h.1]
  cases v with
  | zero => cases hseq
  | succ m =>
    change (Trigger.step _ _ _).trigSeqQ = true at hseq
    rw [Trigger.trigSeqQ_step, Trigger.fireNow, Trigger.stageDone] at hseq
    simp only [Bool.and_eq_true] at hseq
    exact ⟨m, rfl, beq_iff_eq.mp hseq.1.1.1, hseq.1.2.1⟩

/-- On a fresh scope that the script has set up, probe bit 0 has fallen when the trigger fires. -/
theorem fire_falls (hW : p.probeW = 32) {pretrig : ℤ} {a n : ℕ}
    (harm : Arming c₀ inp 0 (configured (Csr.reset p) pretrig) a) (hlast : Core.LastArm c₀.core (coreInp c₀ inp) a n)
    {v : ℕ} (hv : v ≤ n) (h : (run c₀ inp v).trigFire (inp v) = true) :
    1 ≤ v ∧ (seen inp (v - 1)).getLsbD 0 = true ∧ (seen inp v).getLsbD 0 = false := by
  obtain ⟨m, rfl, hm, hhit⟩ := seq_of_fire hz ho h
  have hafter : ∀ j, stAt c₀ inp j ≠ .idle → a < j := by
    intro j hj
    by_contra hle
    exact hj (harm.idle j (Nat.zero_le j) (by omega))
  have hcfg : ∀ j, a < j → j ≤ n → stAt c₀ inp j ≠ .idle →
      (run c₀ inp j).csr.trigCfg = (configured (Csr.reset p) pretrig).trigCfg := by
    intro j h₁ h₂ hj
    have hheld : (run c₀ inp j).csr.trigCfg = (run c₀ inp a).csr.trigCfg :=
      congrArg ConfigOut.trigCfg (configOut_held (hlast.restrict h₁ h₂) hj)
    rw [hheld, ← harm.config]
    rfl
  have hbusy : stAt c₀ inp m ≠ .idle := by
    rw [hm]
    decide
  have hlt := hafter m hbusy
  -- the comparators were registered in the cycle before, under the same configuration
  obtain ⟨j, rfl⟩ : ∃ j, m = j + 1 := ⟨m - 1, by omega⟩
  have hprev : stAt c₀ inp j ≠ .idle := by
    rcases armed_succ hm with hj | ⟨hj, -⟩ <;> rw [hj] <;> decide
  have hlt' := hafter j hprev
  obtain ⟨i, rfl⟩ : ∃ i, j = i + 1 := ⟨j - 1, by omega⟩
  rw [hcfg (i + 1 + 1) hlt (by omega) hbusy, Trigger.curHit, Bool.and_eq_true] at hhit
  have hfirst := stageHit_first (configured_combine (Csr.reset p) pretrig) hhit.2
  rw [cmpHitQ_run, hcfg (i + 1) hlt' (by omega) hprev] at hfirst
  exact ⟨by omega, hit_falls hW pretrig hfirst⟩

end

/-- The list is the probe in successive cycles from `k` on, and at `pos` its bit 0 has just fallen. -/
structure Caught (inp : ℕ → CaptureIn p) (xs : List ℤ) (pos k : ℕ) : Prop where
  inside : pos < xs.length
  samples : ∀ i < xs.length, xs[i]? = some ((seen inp (k + i)).toNat : ℤ)
  after : 1 ≤ k + pos
  high : (seen inp (k + pos - 1)).getLsbD 0 = true
  low : (seen inp (k + pos)).getLsbD 0 = false

/-- What comes over the bus from cycle `t` on does not change what is seen. -/
theorem seen_cutIn (inp : ℕ → CaptureIn p) (t : ℕ) : seen (OnWindow.cutIn inp t) = seen inp := by
  have hprobe : ∀ n, (OnWindow.cutIn inp t n).probe = (inp n).probe := by
    intro n
    unfold OnWindow.cutIn
    split <;> rfl
  funext n
  rw [seen, seen, hprobe]

theorem Caught.of_cutIn {inp : ℕ → CaptureIn p} {xs : List ℤ} {pos k t : ℕ}
    (h : Caught (OnWindow.cutIn inp t) xs pos k) : Caught inp xs pos k := by
  obtain ⟨hinside, hsamples, hafter, hhigh, hlow⟩ := h
  rw [seen_cutIn] at hsamples hhigh hlow
  exact ⟨hinside, hsamples, hafter, hhigh, hlow⟩

/-- What `reconstruct.py` makes of the file, where every cycle is a store tick and only the comparator of
the script triggers. -/
theorem Holding.caught {c₀ : Capture p} {inp : ℕ → CaptureIn p} {a m n : ℕ} (h : Holding c₀ inp a m n)
    (hz : SmplCtrlZero inp) (ho : OwnTriggerOnly inp) (hW : p.probeW = 32) (hr : p.rleEn = true) {pretrig : ℕ}
    (hpre : pretrig < p.depth) (harm : Arming c₀ inp 0 (configured (Csr.reset p) pretrig) a) (around : ℤ) :
    ∃ xs, ∃ pos k : ℕ,
      reconstructMain (dumpText (headerOf (run c₀ inp m).core pretrig) (wholeBuffer (run c₀ inp m).core)) around =
        some (xs, (pos : ℤ)) ∧ Caught inp xs pos k := by
  obtain ⟨cap, d, u, v, k, -, hd, hordered, hnonneg, hfile⟩ := h.reconstructed hW hr hpre harm.config around
  have htrig := hordered.trigger
  have hcut := hordered.cut
  have haccept := htrig.accept.1
  have hv : v ≤ n := by
    rcases htrig.asserted.1 with h | h <;> omega
  have hget := cut_seen (raw_seen hz (d + 1)) hcut
  have hlast : k + cap.trigPos.toNat = v := by
    have hindex := hcut.index
    rwa [raw_seen hz, List.length_map, List.length_range] at hindex
  obtain ⟨hone, hhigh, hlow⟩ := fire_falls hz ho hW harm h.armed.lastArm hv htrig.asserted.2
  have hinside : cap.trigPos.toNat < (cap.samples.map fun s : ℕ => (s : ℤ)).length := by
    rw [List.length_map]
    exact hcut.inside
  obtain ⟨lo, ys, hlo, hfocus, hpos, hys⟩ := focus_stretch around _ hinside
  rw [Int.toNat_of_nonneg hnonneg] at hfocus
  have hindex : k + lo + (cap.trigPos.toNat - lo) = v := by omega
  refine ⟨ys, cap.trigPos.toNat - lo, k + lo, hfile.trans (congrArg some hfocus), hpos, fun i hi => ?_, ?_, ?_, ?_⟩
  · have hlt : lo + i < cap.samples.length := by
      have hsome := hys i hi
      rw [List.getElem?_eq_getElem hi] at hsome
      obtain ⟨hin, -⟩ := List.getElem?_eq_some_iff.mp hsome.symm
      rwa [List.length_map] at hin
    rw [hys i hi, List.getElem?_map, hget (lo + i) hlt, Nat.add_assoc]
    rfl
  · rwa [hindex]
  · rwa [hindex]
  · rwa [hindex]

namespace Board

/-- The script on a board fresh from reset, when nothing but its accesses comes over the lines of the
master until it is over. It comes to a file if the capture is done within 400000 cycles. What
`reconstruct.py` makes of the file is the probe in successive cycles, and at `trig_pos` its bit 0 has
just fallen. -/
theorem script_catches (hW : p.probeW = 32) (hr : p.rleEn = true) (c₀ : Capture p) (probe : BitVec p.probeW)
    (pretrig : ℕ) (hpre : pretrig < p.depth) (len around : ℤ) (inp : ℕ → BoardIn p) (hline : Orderly inp)
    (n : ℕ) (r : Outcome)
    (hplay : Plays (signals (start c₀ probe) inp) 0 (scopeCapture pretrig len) n r) :
    let b := start c₀ probe
    ((∃ v ≤ 400000, stAt c₀ (captureInp b inp) v = .done) → ∃ text, r = .dumped text) ∧
      ∀ text, r = .dumped text → ∃ xs, ∃ pos k : ℕ,
        reconstructMain text around = some (xs, (pos : ℤ)) ∧ Caught (captureInp b inp) xs pos k := by
  intro b
  -- what comes after the script does not matter
  have w := (onWindow hline c₀ probe).cut n
  have honly : ∀ v x, ((signals b inp).cut n).issued v = some x → Benign x := by
    intro v x hx
    change (if v < n then (signals b inp).issued v else none) = some x at hx
    split at hx
    · rename_i hlt
      exact hplay.only (scopeCapture_benign pretrig len) (Nat.zero_le v) hlt hx
    · cases hx
  obtain ⟨hz, ho⟩ := w.benign honly
  have hfresh : Ready c₀ (OnWindow.cutIn (captureInp b inp) n) 0 (Csr.reset p) 0 :=
    ⟨le_rfl, fun v _ hv => by rw [Nat.le_zero.mp hv]; rfl, rfl⟩
  have hscript := plays w hW hr pretrig len (Z := fun s => s = 0) (fun n hn hx => Ready.step w hn hx)
    fun t t' r h hplay => ⟨0, Ready.soft_resets w 0 (Csr.reset p) t t' r h hplay, rfl⟩
  obtain ⟨s, a, rfl, harm, hcomes⟩ := hscript 0 n r hfresh hplay.cut
  refine ⟨?_, ?_⟩
  · rintro ⟨v, hv, hdone⟩
    cases hcomes with
    | dumped m hhold => exact ⟨_, rfl⟩
    | never st _ hlate hbusy =>
      rw [stAt, ← OnWindow.run_cutIn (show v ≤ n by omega), ← stAt] at hdone
      have hlt : a < v := by
        by_contra hle
        rw [harm.idle v (Nat.zero_le v) (by omega)] at hdone
        cases hdone
      exact absurd hdone (hbusy v hlt (by omega))
  · rintro text rfl
    cases hcomes with
    | dumped m hhold =>
      obtain ⟨xs, pos, k, hfile, hcaught⟩ := hhold.caught hz ho hW hr hpre harm around
      exact ⟨xs, pos, k, hfile, hcaught.of_cutIn⟩

/-- The capture of a counter is done in cycle 320. -/
theorem hosted_done : (hostRun (start (Capture.blank nets) 0) (scopeCapture (0 : ℕ) 1) 320).1.capture.core.st = .done := by
  decide +kernel

theorem script_catches_count : ∃ n text xs, ∃ pos k : ℕ,
    let b := start (Capture.blank nets) 0
    let inp := hosted b (scopeCapture (0 : ℕ) 1)
    Plays (signals b inp) 0 (scopeCapture (0 : ℕ) 1) n (.dumped text) ∧
      reconstructMain text 40 = some (xs, (pos : ℤ)) ∧ Caught (captureInp b inp) xs pos k := by
  obtain ⟨n, r, hplay⟩ := plays_hosted (start (Capture.blank nets) 0) (scopeCapture (0 : ℕ) 1) (t := 0) rfl rfl
  obtain ⟨hfile, hfall⟩ := script_catches rfl rfl (Capture.blank nets) 0 0 (by decide) 1 40
    (hosted (start (Capture.blank nets) 0) (scopeCapture (0 : ℕ) 1)) (orderly_hosted _ _) n r hplay
  have hdone := hosted_done
  rw [← run_hosted, capture_run] at hdone
  obtain ⟨text, rfl⟩ := hfile ⟨320, by omega, hdone⟩
  obtain ⟨xs, pos, k, hxs⟩ := hfall text rfl
  exact ⟨n, text, xs, pos, k, hplay, hxs⟩

end Board

end FpgaScope
