import FpgaScope.Capture.Accept
import FpgaScope.Sim.TriggerModel

/-! The sequencer of `scope_trigger` against `trigger_model`. The model counts
samples and the pipeline counts cycles: in the `m`-th `ARMED` cycle the registers
hold what the model holds after `m` samples, and the fire pulse of sample `i` meets
that sample two cycles behind the probe. -/

namespace FpgaScope

open Sim

/-! ### One sample -/

section
variable {W : ℕ}

/-- The comparator configuration as the model's tuples. -/
def TrigCfg.cmpCfg (cfg : TrigCfg W) (k : Fin 4) : CmpCfg where
  mask := (cfg.cmpMask k).toNat
  value := (cfg.cmpValue k).toNat
  edgeMask := (cfg.cmpEdgeMask k).toNat
  edgePol := (cfg.cmpEdgePol k).toNat

def TrigCfg.seqCnts (cfg : TrigCfg W) (n : Fin 4) : ℕ := (cfg.seqCnt n).toNat

theorem inv_toNat (x : BitVec W) : inv ((1 <<< W) - 1) x.toNat = (~~~x).toNat := by
  have hmask : (1 <<< W) - 1 = (BitVec.allOnes W).toNat := by
    rw [BitVec.toNat_allOnes, Nat.one_shiftLeft]
  rw [inv, hmask, ← BitVec.toNat_and, ← BitVec.toNat_xor, BitVec.and_allOnes, BitVec.allOnes_xor]

theorem toNat_beq (x y : BitVec W) : (x.toNat == y.toNat) = (x == y) := by
  rw [Bool.eq_iff_iff, beq_iff_eq, beq_iff_eq, BitVec.toNat_inj]

theorem cmpHit_eq (cfg : TrigCfg W) (k : Fin 4) (prev s : BitVec W) :
    cmpHit ((1 <<< W) - 1) cfg.cmpCfg k prev.toNat s.toNat = cfg.hit k s prev := by
  have hz : ∀ x : BitVec W, (x.toNat == 0) = (x == 0) := fun x => by
    rw [← toNat_beq, show (0 : BitVec W).toNat = 0 by simp]
  have hn : ∀ x : BitVec W, (x.toNat != 0) = (x != 0) := fun x => by rw [bne, hz, bne]
  simp only [cmpHit, TrigCfg.cmpCfg, TrigCfg.hit, inv_toNat, ← BitVec.toNat_and, ← BitVec.toNat_or,
    toNat_beq, hz, hn]

/-- Four flags as a nibble. -/
def nibble (f : Fin 4 → Bool) : ℕ :=
  (List.finRange 4).foldl (fun hits k => if f k then hits ||| 1 <<< k.val else hits) 0

theorem hitsOf_eq (cfg : TrigCfg W) (prev s : BitVec W) :
    hitsOf ((1 <<< W) - 1) cfg.cmpCfg prev.toNat s.toNat = nibble (cfg.hits s prev) := by
  simp only [hitsOf, cmpHit_eq]
  rfl

theorem nibble_getLsbD (v : BitVec 4) : nibble (fun k => v.getLsbD k.val) = v.toNat := by
  revert v
  decide

theorem sel_eq (cfg : TrigCfg W) (n : Fin 4) :
    Sim.sel cfg.trigCombine.toNat n = nibble (cfg.sel n) := by
  have hbits : cfg.sel n = fun k => (cfg.trigCombine.extractLsb' (8 * n.val) 4).getLsbD k.val := by
    funext k
    rw [TrigCfg.sel, BitVec.getLsbD_extractLsb']
    simp
  rw [hbits, nibble_getLsbD, BitVec.extractLsb'_toNat, Sim.sel]
  exact Nat.and_two_pow_sub_one_eq_mod _ 4

theorem andm_eq (cfg : TrigCfg W) (n : Fin 4) :
    (andm cfg.trigCombine.toNat n != 0) = cfg.andMode n := by
  rw [andm, TrigCfg.andMode, Nat.and_comm, BitVec.getLsbD]
  rfl

theorem nibble_flags (a b c d a' b' c' d' : Bool) :
    let f := ![a, b, c, d]
    let g := ![a', b', c', d']
    ((nibble g != 0) = (List.finRange 4).any g) ∧
      ((nibble f &&& nibble g == nibble g) = (List.finRange 4).all fun k => f k || !g k) ∧
      ((nibble f &&& nibble g != 0) = (List.finRange 4).any fun k => f k && g k) := by
  revert a b c d a' b' c' d'
  decide

theorem flags_eq (f : Fin 4 → Bool) : f = ![f 0, f 1, f 2, f 3] := by
  funext k
  fin_cases k <;> rfl

theorem en_eq (cfg : TrigCfg W) : en cfg.trigCombine.toNat = cfg.stageEn := by
  funext n
  rw [en, sel_eq, TrigCfg.stageEn, flags_eq (cfg.sel n)]
  exact (nibble_flags false false false false _ _ _ _).1

theorem stageHit_eq (cfg : TrigCfg W) (n : Fin 4) (f : Fin 4 → Bool) :
    Sim.stageHit cfg.trigCombine.toNat n (nibble f) = cfg.stageHit n f := by
  rw [Sim.stageHit, TrigCfg.stageHit, andm_eq, sel_eq, flags_eq f, flags_eq (cfg.sel n)]
  obtain ⟨-, hall, hany⟩ := nibble_flags (f 0) (f 1) (f 2) (f 3) (cfg.sel n 0) (cfg.sel n 1)
    (cfg.sel n 2) (cfg.sel n 3)
  rw [hall, hany]

/-- The register encoding of the current stage. -/
def encode : Option (Fin 4) → BitVec 3
  | none => BitVec.ofNat 3 seqStages
  | some n => BitVec.ofNat 3 n.val

theorem firstEnFrom_eq (cfg : TrigCfg W) (start : ℕ) :
    firstEnFrom start cfg.stageEn = encode (nextEn cfg.trigCombine.toNat start) := by
  have key : ∀ f : Fin 4 → Bool, (List.finRange seqStages).reverse.foldl
      (fun r i => if f i then BitVec.ofNat 3 i.val else r) (BitVec.ofNat 3 seqStages) =
      encode ((List.finRange 4).find? f) := by
    intro f
    rw [flags_eq f]
    generalize f 0 = a, f 1 = b, f 2 = c, f 3 = d
    revert a b c d
    decide
  rw [nextEn, en_eq, ← key]
  rfl

end

/-! ### One cycle of the sequencer -/

namespace Trigger

variable {W : ℕ}

/-- The sequencer registers hold what the model's variables hold. -/
structure Follows (cfg : TrigCfg W) (t : Trigger W) (m : LoopState) : Prop where
  cur : t.cur = encode m.cur
  occ : t.occ.toNat = m.occ
  fired : t.fired = m.fired.isSome
  bound : ∀ n, m.cur = some n → m.occ < tgt cfg.seqCnts n

theorem encode_valid (n : Fin 4) : encode (some n) < BitVec.ofNat 3 seqStages ∧
    (encode (some n)).toNat = n.val ∧ ((encode (some n)).setWidth 2).toFin = n := by
  revert n
  decide

theorem encode_eq_last (o : Option (Fin 4)) :
    (encode o == BitVec.ofNat 3 seqStages) = o.isNone := by
  revert o
  decide

theorem tgt_toNat (cfg : TrigCfg W) (n : Fin 4) :
    (cfg.tgt n).toNat = tgt cfg.seqCnts n ∧ (cfg.tgt n).toNat < 2 ^ 32 := by
  refine ⟨?_, (cfg.tgt n).isLt⟩
  rw [TrigCfg.tgt, tgt, TrigCfg.seqCnts]
  by_cases h : cfg.seqCnt n = 0
  · rw [h]
    rfl
  · have hpos : (cfg.seqCnt n).toNat ≠ 0 := fun h0 => h (BitVec.eq_of_toNat_eq h0)
    rw [beq_eq_false_iff_ne.mpr h, if_neg (by simp)]
    omega

/-- Parked while `run` is low: the first enabled stage, counters clear. -/
theorem follows_parked (t : Trigger W) (cfg : TrigCfg W) (i : TrigIn W) (h : i.run = false)
    (prev0 : ℕ) : Follows cfg (t.step cfg i) (loopInit W cfg.trigCombine.toNat prev0) := by
  simp only [Trigger.step, h, Bool.not_false, ↓reduceIte]
  refine ⟨firstEnFrom_eq cfg 0, rfl, rfl, fun n _ => ?_⟩
  exact lt_of_lt_of_le Nat.zero_lt_one (le_max_left _ _)

/-- The sample pipeline runs in every cycle. -/
theorem pipe_step (t : Trigger W) (cfg : TrigCfg W) (i : TrigIn W) :
    (t.step cfg i).dly0 = i.probe ∧ (t.step cfg i).dly1 = t.dly0 ∧
      (t.step cfg i).cmpHitQ = cfg.hits i.probe t.dly0 := by
  unfold Trigger.step
  cases hr : i.run with
  | false => exact ⟨rfl, rfl, rfl⟩
  | true =>
    simp only [Bool.not_true, Bool.false_eq_true, ↓reduceIte]
    split
    · exact ⟨rfl, rfl, rfl⟩
    · split
      · exact ⟨rfl, rfl, rfl⟩
      · split <;> exact ⟨rfl, rfl, rfl⟩

theorem trigSeqQ_step (t : Trigger W) (cfg : TrigCfg W) (i : TrigIn W) :
    (t.step cfg i).trigSeqQ = t.fireNow cfg i.run := by
  unfold Trigger.step
  cases hr : i.run with
  | false => simp [fireNow]
  | true =>
    simp only [Bool.not_true, Bool.false_eq_true, ↓reduceIte]
    split
    · rfl
    · split
      · rfl
      · split <;> rfl

/-- The sequencer registers after a cycle with `run` high. -/
def seqNext (t : Trigger W) (cfg : TrigCfg W) : BitVec 3 × BitVec 32 × Bool :=
  if t.fireNow cfg true then (t.cur, t.occ, true)
  else if !t.fired && t.stageDone cfg then (t.nxt cfg, 0, t.fired)
  else if !t.fired && t.curHit cfg then (t.cur, t.occ + 1, t.fired)
  else (t.cur, t.occ, t.fired)

theorem seq_step (t : Trigger W) (cfg : TrigCfg W) {i : TrigIn W} (hr : i.run = true) :
    ((t.step cfg i).cur, (t.step cfg i).occ, (t.step cfg i).fired) = t.seqNext cfg := by
  simp only [Trigger.step, seqNext, hr, Bool.not_true, Bool.false_eq_true, ↓reduceIte]
  split
  · rfl
  · split
    · rfl
    · split <;> rfl

theorem Follows.of_seq {cfg : TrigCfg W} {t : Trigger W} {m : LoopState} {cur : BitVec 3}
    {occ : BitVec 32} {fired : Bool} (h : (t.cur, t.occ, t.fired) = (cur, occ, fired))
    (hc : cur = encode m.cur) (ho : occ.toNat = m.occ) (hf : fired = m.fired.isSome)
    (hb : ∀ n, m.cur = some n → m.occ < tgt cfg.seqCnts n) : Follows cfg t m := by
  simp only [Prod.mk.injEq] at h
  obtain ⟨rfl, rfl, rfl⟩ := h
  exact ⟨hc, ho, hf, hb⟩

/-- A parked or fired sequencer rests. -/
theorem seqNext_rest {t : Trigger W} {cfg : TrigCfg W} {m : LoopState} (h : Follows cfg t m)
    (hm : m.cur = none ∨ m.fired ≠ none) :
    t.seqNext cfg = (t.cur, t.occ, t.fired) ∧ t.fireNow cfg true = false := by
  have hno : t.fired = true ∨ t.curHit cfg = false := by
    rcases hm with hc | hf
    · right
      have hcur := h.cur
      rw [hc] at hcur
      simp [curHit, curValid, hcur, encode]
    · left
      rw [h.fired]
      exact Option.isSome_iff_ne_none.mpr hf
  rcases hno with hf | hh
  · simp [seqNext, fireNow, hf]
  · simp [seqNext, fireNow, stageDone, hh]

/-- The registers of a running sequencer in the model's terms. -/
theorem seqNext_run {t : Trigger W} {cfg : TrigCfg W} {m : LoopState} (h : Follows cfg t m)
    {n : Fin 4} (hc : m.cur = some n) (hf : m.fired = none) :
    let hit := Sim.stageHit cfg.trigCombine.toNat n (nibble t.cmpHitQ)
    let done := hit && decide (tgt cfg.seqCnts n ≤ m.occ + 1)
    let last := (nextEn cfg.trigCombine.toNat (n.val + 1)).isNone
    t.fireNow cfg true = (done && last) ∧ t.seqNext cfg =
      if done && last then (t.cur, t.occ, true)
      else if done then (encode (nextEn cfg.trigCombine.toNat (n.val + 1)), 0, false)
      else if hit then (t.cur, t.occ + 1, false)
      else (t.cur, t.occ, false) := by
  obtain ⟨hlt, hnat, hfin⟩ := encode_valid n
  obtain ⟨hcur, hocc, hfired, hbound⟩ := h
  rw [hc] at hcur
  rw [hf, Option.isSome_none] at hfired
  have hstage : t.curStage = n := by rw [curStage, hcur, hfin]
  have hhit : t.curHit cfg = Sim.stageHit cfg.trigCombine.toNat n (nibble t.cmpHitQ) := by
    rw [curHit, hstage, stageHit_eq, curValid, hcur, decide_eq_true hlt, Bool.true_and]
  have hnext : t.nxt cfg = encode (nextEn cfg.trigCombine.toNat (n.val + 1)) := by
    rw [nxt, hcur, hnat, firstEnFrom_eq]
  obtain ⟨htgt, htgt'⟩ := tgt_toNat cfg n
  have hb := hbound n hc
  have hsucc : (t.occ + 1).toNat = m.occ + 1 := by
    rw [BitVec.toNat_add, hocc]
    exact Nat.mod_eq_of_lt (by change m.occ + 1 < 2 ^ 32; omega)
  have hdone : t.stageDone cfg = (Sim.stageHit cfg.trigCombine.toNat n (nibble t.cmpHitQ) &&
      decide (tgt cfg.seqCnts n ≤ m.occ + 1)) := by
    rw [stageDone, hhit, hstage]
    congr 1
    rw [decide_eq_decide, BitVec.le_def, hsucc, htgt]
  have hfire : t.fireNow cfg true = (t.stageDone cfg &&
      (nextEn cfg.trigCombine.toNat (n.val + 1)).isNone) := by
    rw [fireNow, hfired, hnext, encode_eq_last]
    simp
  simp only [seqNext, hfire, hdone, hhit, hnext, hfired, Bool.not_false, Bool.true_and, and_self]

/-- While it runs, one cycle is one sample of the model, and the pulse is the
model's firing. -/
theorem follows_step {t : Trigger W} {cfg : TrigCfg W} {i : TrigIn W} {m : LoopState}
    (h : Follows cfg t m) (hr : i.run = true) (j : ℕ) :
    Follows cfg (t.step cfg i)
        (advance cfg.trigCombine.toNat cfg.seqCnts j (nibble t.cmpHitQ) m) ∧
      t.fireNow cfg true = (m.fired.isNone &&
        (advance cfg.trigCombine.toNat cfg.seqCnts j (nibble t.cmpHitQ) m).fired.isSome) := by
  have hseq := t.seq_step cfg hr
  by_cases hrest : m.cur = none ∨ m.fired ≠ none
  · obtain ⟨hnext, hfire⟩ := seqNext_rest h hrest
    rw [hnext] at hseq
    rw [advance_rest _ _ hrest, hfire]
    refine ⟨.of_seq hseq h.cur h.occ h.fired h.bound, ?_⟩
    cases m.fired <;> rfl
  · obtain ⟨hcur, hf⟩ := not_or.mp hrest
    have hf : m.fired = none := not_not.mp hf
    obtain ⟨n, hc⟩ := Option.ne_none_iff_exists'.mp hcur
    obtain ⟨hfire, hnext⟩ := seqNext_run h hc hf
    have hm := advance_move cfg.trigCombine.toNat cfg.seqCnts j (nibble t.cmpHitQ) hc hf
    rw [hnext] at hseq
    rw [hfire]
    generalize advance cfg.trigCombine.toNat cfg.seqCnts j (nibble t.cmpHitQ) m = m' at hm
    cases hm with
    | miss hs =>
      simp only [hs, Bool.false_and, Bool.false_eq_true, ↓reduceIte] at hseq ⊢
      refine ⟨.of_seq hseq h.cur h.occ (by rw [hf]; rfl) h.bound, by rw [hf]; rfl⟩
    | count hs hlt =>
      have hnle : ¬ tgt cfg.seqCnts n ≤ m.occ + 1 := by omega
      simp only [hs, hnle, decide_false, Bool.and_false, Bool.false_and, Bool.false_eq_true,
        ↓reduceIte] at hseq ⊢
      refine ⟨.of_seq hseq h.cur ?_ (by rw [hf]; rfl) fun n' hn' => ?_, by rw [hf]; rfl⟩
      · obtain ⟨htgt, htgt'⟩ := tgt_toNat cfg n
        rw [BitVec.toNat_add, h.occ]
        exact Nat.mod_eq_of_lt (by change m.occ + 1 < 2 ^ 32; omega)
      · rw [show n' = n from Option.some.inj (hn'.symm.trans hc)]
        exact hlt
    | next hs hle nxt hn =>
      simp only [hs, hle, hn, decide_true, Option.isNone_some, Bool.and_false, Bool.and_self,
        Bool.false_eq_true, ↓reduceIte] at hseq ⊢
      refine ⟨.of_seq hseq rfl rfl (by rw [hf]; rfl) fun n' _ => ?_, by rw [hf]; rfl⟩
      exact lt_of_lt_of_le Nat.zero_lt_one (le_max_left _ _)
    | fire hs hle hn =>
      simp only [hs, hle, hn, decide_true, Option.isNone_none, Bool.and_self, ↓reduceIte] at hseq ⊢
      exact ⟨.of_seq hseq h.cur h.occ rfl h.bound, by rw [hf]; rfl⟩

end Trigger

/-! ### Runs -/

namespace Capture

variable {p : Params} {c₀ : Capture p} {inp : ℕ → CaptureIn p}

/-- `sample_o` is the probe two cycles ago. -/
theorem sampleO_run (c₀ : Capture p) (inp : ℕ → CaptureIn p) (n : ℕ) :
    (run c₀ inp (n + 2)).trigger.sampleO = (inp n).probe := by
  change (Trigger.step _ _ _).dly1 = _
  rw [(Trigger.pipe_step _ _ _).2.1]
  exact (Trigger.pipe_step _ _ _).1

/-- The comparator hits of a probe sample, one cycle later. -/
theorem cmpHitQ_run (c₀ : Capture p) (inp : ℕ → CaptureIn p) (n : ℕ) :
    (run c₀ inp (n + 2)).trigger.cmpHitQ =
      (run c₀ inp (n + 1)).csr.trigCfg.hits (inp (n + 1)).probe (inp n).probe := by
  change (Trigger.step _ _ _).cmpHitQ = _
  rw [(Trigger.pipe_step _ _ _).2.2]
  congr 1
  exact (Trigger.pipe_step _ _ _).1

/-- The samples of a window's sequencer, from the probe of cycle `g` on. -/
def stimFrom (inp : ℕ → CaptureIn p) (g m : ℕ) : List ℕ :=
  (List.range m).map fun j => (inp (g + j)).probe.toNat

/-- `trigger_model` on the first `m` samples of the window that is armed in cycle
`a`, with the configuration of that cycle. -/
def modelAt (c₀ : Capture p) (inp : ℕ → CaptureIn p) (a m : ℕ) : List ℕ × Option ℕ :=
  triggerModel p.probeW (run c₀ inp a).csr.trigCfg.cmpCfg
    (run c₀ inp a).csr.trigCfg.trigCombine.toNat (run c₀ inp a).csr.trigCfg.seqCnts
    (inp (a - 2)).probe.toNat (stimFrom inp (a - 1) m)

/-- The loop variables behind `modelAt`. -/
def loopAt (c₀ : Capture p) (inp : ℕ → CaptureIn p) (a m : ℕ) : LoopState :=
  triggerLoop p.probeW (run c₀ inp a).csr.trigCfg.cmpCfg
    (run c₀ inp a).csr.trigCfg.trigCombine.toNat (run c₀ inp a).csr.trigCfg.seqCnts
    (inp (a - 2)).probe.toNat (stimFrom inp (a - 1) m)

theorem modelAt_snd (a m : ℕ) : (modelAt c₀ inp a m).2 = (loopAt c₀ inp a m).fired := rfl

theorem and_wmask {w : ℕ} (x : BitVec w) : x.toNat &&& ((1 <<< w) - 1) = x.toNat := by
  rw [Nat.one_shiftLeft, Nat.and_two_pow_sub_one_eq_mod, Nat.mod_eq_of_lt x.isLt]

theorem stimFrom_succ (g m : ℕ) :
    stimFrom inp g (m + 1) = stimFrom inp g m ++ [(inp (g + m)).probe.toNat] := by
  rw [stimFrom, List.range_succ, List.map_append]
  rfl

/-- The previous sample in the model is the previous probe value. -/
theorem loopAt_prev (c₀ : Capture p) (inp : ℕ → CaptureIn p) (g m : ℕ) :
    (loopAt c₀ inp (g + 2) m).prev = (inp (g + m)).probe.toNat := by
  cases m with
  | zero => exact and_wmask _
  | succ m =>
    rw [loopAt, stimFrom_succ, triggerLoop_snoc]
    change _ &&& _ = _
    rw [and_wmask, show g + 2 - 1 + m = g + (m + 1) by omega]

/-- The hits of sample `m` of the window. -/
def hitsAt (c₀ : Capture p) (inp : ℕ → CaptureIn p) (g m : ℕ) : ℕ :=
  nibble ((run c₀ inp (g + 2)).csr.trigCfg.hits (inp (g + 1 + m)).probe (inp (g + m)).probe)

/-- One more sample of the model. -/
theorem loopAt_succ (c₀ : Capture p) (inp : ℕ → CaptureIn p) (g m : ℕ) :
    ∃ prev hitsList, loopAt c₀ inp (g + 2) (m + 1) =
      { advance (run c₀ inp (g + 2)).csr.trigCfg.trigCombine.toNat
          (run c₀ inp (g + 2)).csr.trigCfg.seqCnts m (hitsAt c₀ inp g m)
          (loopAt c₀ inp (g + 2) m) with prev := prev, hitsList := hitsList } := by
  have hlen : (stimFrom inp (g + 2 - 1) m).length = m := by simp [stimFrom]
  have hhits : hitsOf ((1 <<< p.probeW) - 1) (run c₀ inp (g + 2)).csr.trigCfg.cmpCfg
      (loopAt c₀ inp (g + 2) m).prev ((inp (g + 2 - 1 + m)).probe.toNat &&& ((1 <<< p.probeW) - 1)) =
      hitsAt c₀ inp g m := by
    rw [loopAt_prev, and_wmask, hitsOf_eq]
    rfl
  refine ⟨(inp (g + 2 - 1 + m)).probe.toNat &&& ((1 <<< p.probeW) - 1),
    (loopAt c₀ inp (g + 2) m).hitsList ++ [hitsAt c₀ inp g m], ?_⟩
  rw [← hhits, loopAt, stimFrom_succ, triggerLoop_snoc, loopBody, hlen]
  rfl

/-- The index of the firing sample does not change any more. -/
theorem loopAt_fired {g m i : ℕ} (h : (loopAt c₀ inp (g + 2) m).fired = some i) {m' : ℕ}
    (hle : m ≤ m') : (loopAt c₀ inp (g + 2) m').fired = some i := by
  induction m', hle using Nat.le_induction with
  | base => exact h
  | succ m' _ ih =>
    obtain ⟨_, _, heq⟩ := loopAt_succ c₀ inp g m'
    rw [heq, advance_rest _ _ (Or.inr (by simp [ih]))]
    exact ih

theorem advance_fired (combine : ℕ) (seqCnt : Fin 4 → ℕ) (j hits : ℕ) {t : LoopState}
    (hf : t.fired = none) : (advance combine seqCnt j hits t).fired = none ∨
      (advance combine seqCnt j hits t).fired = some j := by
  cases hc : t.cur with
  | none =>
    rw [advance_rest j hits (Or.inl hc)]
    exact Or.inl hf
  | some n =>
    have hm := advance_move combine seqCnt j hits hc hf
    generalize advance combine seqCnt j hits t = t' at hm
    cases hm with
    | fire => exact Or.inr rfl
    | miss | count | next => exact Or.inl hf

/-- The model fires on the sample it has just seen. -/
theorem loopAt_fires {g m i : ℕ} (h : (loopAt c₀ inp (g + 2) m).fired = some i) :
    i < m ∧ (loopAt c₀ inp (g + 2) i).fired = none ∧
      (loopAt c₀ inp (g + 2) (i + 1)).fired = some i := by
  induction m with
  | zero => cases h
  | succ m ih =>
    cases hm : (loopAt c₀ inp (g + 2) m).fired with
    | some j =>
      have hj := loopAt_fired hm (Nat.le_succ m)
      rw [h] at hj
      obtain rfl := Option.some.inj hj
      obtain ⟨hlt, hrest⟩ := ih hm
      exact ⟨Nat.lt_succ_of_lt hlt, hrest⟩
    | none =>
      have h' := h
      obtain ⟨_, _, heq⟩ := loopAt_succ c₀ inp g m
      rw [heq] at h'
      rcases advance_fired _ _ m (hitsAt c₀ inp g m) hm with hn | hs
      · rw [show _ = none from hn] at h'
        cases h'
      · rw [show _ = some m from hs] at h'
        obtain rfl := Option.some.inj h'
        exact ⟨Nat.lt_succ_self m, hm, h⟩

/-- The configuration does not change from the last `FILLING` cycle on. -/
theorem trigCfg_held {g n : ℕ} (h : ∀ v, g ≤ v → v < n → stAt c₀ inp v ≠ .idle) (hle : g ≤ n) :
    (run c₀ inp n).csr.trigCfg = (run c₀ inp g).csr.trigCfg := by
  induction n, hle using Nat.le_induction with
  | base => rfl
  | succ n hn ih =>
    rw [(config_succ (h n hn (Nat.lt_succ_self n))).2.1]
    exact ih fun v h₁ h₂ => h v h₁ (Nat.lt_succ_of_lt h₂)

section
variable {g : ℕ} (hfill : stAt c₀ inp (g + 1) = .filling)
include hfill

theorem trigCfg_window {m n : ℕ} (harm : ∀ v, g + 2 ≤ v → v < g + 2 + m → stAt c₀ inp v = .armed)
    (h₁ : g + 1 ≤ n) (h₂ : n ≤ g + 2 + m) :
    (run c₀ inp n).csr.trigCfg = (run c₀ inp (g + 2)).csr.trigCfg := by
  have hidle : ∀ v, g + 1 ≤ v → v < g + 2 + m → stAt c₀ inp v ≠ .idle := by
    intro v hv hv'
    rcases Nat.eq_or_lt_of_le hv with rfl | hlt
    · simp [hfill]
    · simp [harm v hlt hv']
  rw [trigCfg_held (fun v a b => hidle v a (by omega)) h₁,
    trigCfg_held (n := g + 2) (fun v a b => hidle v a (by omega)) (by omega)]

theorem run_low : ((run c₀ inp (g + 1)).trigIn (inp (g + 1))).run = false := by
  change ((run c₀ inp (g + 1)).core.st == ScopeState.armed) = false
  rw [show (run c₀ inp (g + 1)).core.st = .filling from hfill]
  rfl

/-- One `ARMED` cycle. -/
theorem follows_cycle {m : ℕ} (harm : ∀ v, g + 2 ≤ v → v < g + 2 + (m + 1) → stAt c₀ inp v = .armed)
    (h : Trigger.Follows (run c₀ inp (g + 2)).csr.trigCfg (run c₀ inp (g + 2 + m)).trigger
      (loopAt c₀ inp (g + 2) m)) :
    Trigger.Follows (run c₀ inp (g + 2)).csr.trigCfg (run c₀ inp (g + 2 + (m + 1))).trigger
        (loopAt c₀ inp (g + 2) (m + 1)) ∧
      (run c₀ inp (g + 2 + (m + 1))).trigger.trigSeqQ =
        ((loopAt c₀ inp (g + 2) m).fired.isNone &&
          (loopAt c₀ inp (g + 2) (m + 1)).fired.isSome) := by
  have hrun : ((run c₀ inp (g + 2 + m)).trigIn (inp (g + 2 + m))).run = true := by
    change ((run c₀ inp (g + 2 + m)).core.st == ScopeState.armed) = true
    rw [show (run c₀ inp (g + 2 + m)).core.st = .armed from harm _ (by omega) (by omega)]
    rfl
  have hcfg : (run c₀ inp (g + 2 + m)).csr.trigCfg = (run c₀ inp (g + 2)).csr.trigCfg :=
    trigCfg_window hfill harm (by omega) (by omega)
  have hhits : nibble (run c₀ inp (g + 2 + m)).trigger.cmpHitQ = hitsAt c₀ inp g m := by
    have hq := cmpHitQ_run c₀ inp (g + m)
    rw [show g + m + 2 = g + 2 + m by omega, show g + m + 1 = g + 1 + m by omega,
      trigCfg_window hfill harm (n := g + 1 + m) (by omega) (by omega)] at hq
    rw [hq]
    rfl
  rw [← hcfg] at h
  obtain ⟨hnext, hfire⟩ := Trigger.follows_step h hrun m
  have hstep : (run c₀ inp (g + 2 + (m + 1))).trigger = (run c₀ inp (g + 2 + m)).trigger.step
      (run c₀ inp (g + 2 + m)).csr.trigCfg ((run c₀ inp (g + 2 + m)).trigIn (inp (g + 2 + m))) := rfl
  obtain ⟨_, _, heq⟩ := loopAt_succ c₀ inp g m
  rw [hhits] at hnext hfire
  rw [heq, ← hcfg, hstep]
  refine ⟨⟨hnext.cur, hnext.occ, hnext.fired, hnext.bound⟩, ?_⟩
  rw [Trigger.trigSeqQ_step, hrun, hfire]

/-- In `ARMED` the sequencer follows the model sample by sample. -/
theorem follows_run {m : ℕ} (harm : ∀ v, g + 2 ≤ v → v < g + 2 + m → stAt c₀ inp v = .armed) :
    Trigger.Follows (run c₀ inp (g + 2)).csr.trigCfg (run c₀ inp (g + 2 + m)).trigger
      (loopAt c₀ inp (g + 2) m) := by
  induction m with
  | zero =>
    have hcfg := trigCfg_window hfill harm (le_refl (g + 1)) (by omega)
    have hrun := run_low hfill
    have h : Trigger.Follows (run c₀ inp (g + 1)).csr.trigCfg (run c₀ inp (g + 2)).trigger
        (loopInit p.probeW (run c₀ inp (g + 1)).csr.trigCfg.trigCombine.toNat (inp g).probe.toNat) :=
      Trigger.follows_parked _ _ _ hrun _
    rw [hcfg] at h
    exact h
  | succ m ih =>
    exact (follows_cycle hfill harm (ih fun v h₁ h₂ => harm v h₁ (by omega))).1

/-- The pulse of the sequencer comes with the model's firing sample. -/
theorem trigSeqQ_window {m : ℕ}
    (harm : ∀ v, g + 2 ≤ v → v < g + 2 + m → stAt c₀ inp v = .armed) :
    (run c₀ inp (g + 2 + m)).trigger.trigSeqQ = true ↔
      ∃ i, m = i + 1 ∧ (loopAt c₀ inp (g + 2) m).fired = some i := by
  cases m with
  | zero =>
    have hrun := run_low hfill
    have hq : (run c₀ inp (g + 2 + 0)).trigger.trigSeqQ = (run c₀ inp (g + 1)).trigger.fireNow
        (run c₀ inp (g + 1)).csr.trigCfg ((run c₀ inp (g + 1)).trigIn (inp (g + 1))).run :=
      Trigger.trigSeqQ_step _ _ _
    simp [hq, hrun, Trigger.fireNow]
  | succ m =>
    have hseq := (follows_cycle hfill harm
      (follows_run hfill fun v h₁ h₂ => harm v h₁ (by omega))).2
    rw [hseq, Bool.and_eq_true, Option.isNone_iff_eq_none, Option.isSome_iff_exists]
    constructor
    · rintro ⟨hn, i, hi⟩
      obtain ⟨hlt, -, hsome⟩ := loopAt_fires hi
      rcases Nat.lt_succ_iff_lt_or_eq.mp hlt with hlt' | rfl
      · rw [loopAt_fired hsome hlt'] at hn
        cases hn
      · exact ⟨i, rfl, hi⟩
    · rintro ⟨i, him, hi⟩
      obtain rfl : m = i := by omega
      exact ⟨(loopAt_fires hi).2.1, m, hi⟩

end

/-! ### The accepted trigger -/

/-- No force strobe and no external trigger in the whole run. -/
def OwnTriggerOnly (inp : ℕ → CaptureIn p) : Prop :=
  ∀ n, (inp n).bus.forceStrobe = false ∧ (inp n).trigExtI = false

theorem forcePend_run (c₀ : Capture p) (h : OwnTriggerOnly inp) (n : ℕ) :
    (run c₀ inp n).csr.forcePend = false := by
  induction n with
  | zero => rfl
  | succ n ih =>
    change (run c₀ inp n).csr.forcePendNext (inp n).bus _ = false
    simp [Csr.forcePendNext, (h n).1, ih]

theorem trigPend_run (c₀ : Capture p) (h : SmplCtrlZero inp) (n : ℕ) :
    (run c₀ inp n).trigPend = false := by
  cases n with
  | zero => rfl
  | succ n => rw [trigPend_succ, sampleEn_run c₀ h, Bool.not_true, Bool.and_false]

/-- A window that left `ARMED` in cycle `t` holds the word of that cycle at `trig_index`. -/
theorem completed_word {t n : ℕ} (harm : stAt c₀ inp t = .armed) (hlt : t < n)
    (htrig : ∀ v, t < v → v ≤ n → stAt c₀ inp v = .triggered)
    (hdone : stAt c₀ inp (n + 1) = .done) :
    (run c₀ inp (n + 1)).core.uBuf.mem (run c₀ inp (n + 1)).core.trigIndex =
      (run c₀ inp t).sampleData (inp t) := by
  have hst : (run c₀ inp n).core.st = .triggered := htrig n hlt le_rfl
  have hst' : (run c₀ inp (n + 1)).core.st = .done := hdone
  rw [core_run] at hst hst'
  obtain ⟨hL, hL'⟩ := depthLog2_bounds p
  obtain ⟨f, u, k, hw⟩ := Core.window_complete hL hL' (pretrigHeld c₀ inp) hst hst'
  have hu : u = t := by
    have harmed : stAt c₀ inp u = .armed := by
      unfold stAt
      rw [core_run]
      exact Core.trigAccept_state hw.accept
    rcases Nat.lt_trichotomy u t with h | h | h
    · have hbad := hw.after _ h hlt.le
      rw [← core_run] at hbad
      exact absurd (harm.symm.trans hbad) (by decide)
    · exact h
    · exact absurd (harmed.symm.trans (htrig u h hw.u_lt.le)) (by decide)
  have hword := hw.trig_word
  rw [← core_run, hu] at hword
  exact hword

section
variable (hr : p.rleEn = false) (hs : SmplCtrlZero inp) (ho : OwnTriggerOnly inp)
include hr hs ho

/-- Then the core accepts exactly the sequencer's pulse. -/
theorem acceptsAt_seq (c₀ : Capture p) {n : ℕ} (harm : stAt c₀ inp n = .armed) :
    acceptsAt c₀ inp n = (run c₀ inp n).trigger.trigSeqQ := by
  have htick := sampleEn_run c₀ hs n
  have htrig : trigAt c₀ inp n = (run c₀ inp n).trigger.trigSeqQ := by
    simp [trigAt, trig, Trigger.trig, trigIn, forcePend_run c₀ ho n, (ho n).2]
  have hfire : (run c₀ inp n).trigFire (inp n) = (run c₀ inp n).trigger.trigSeqQ := by
    rw [trigFire_eq, htick, trigPend_run c₀ hs, htrig, Bool.or_false, Bool.and_true]
  rw [Bool.eq_iff_iff, acceptsAt_iff, coreTrig, sampleValid, hr]
  simp only [Bool.false_eq_true, ↓reduceIte, hfire, htick, harm, and_true]

/-- While the model has not fired an undisarmed window stays `ARMED`. -/
theorem armed_while_silent {g m : ℕ} (hfill : stAt c₀ inp (g + 1) = .filling)
    (harm : stAt c₀ inp (g + 2) = .armed)
    (hd : ∀ v, g + 2 ≤ v → v < g + 2 + m → disarmAt inp v = false)
    (hno : ∀ k < m, (loopAt c₀ inp (g + 2) k).fired = none) :
    ∀ v, g + 2 ≤ v → v ≤ g + 2 + m → stAt c₀ inp v = .armed := by
  induction m with
  | zero =>
    intro v h₁ h₂
    rwa [show v = g + 2 by omega]
  | succ m ih =>
    have hprev := ih (fun v h₁ h₂ => hd v h₁ (by omega)) (fun k hk => hno k (by omega))
    have hnow := hprev (g + 2 + m) (by omega) le_rfl
    have hquiet : acceptsAt c₀ inp (g + 2 + m) = false := by
      rw [acceptsAt_seq hr hs ho c₀ hnow, ← Bool.not_eq_true,
        trigSeqQ_window hfill fun v h₁ h₂ => hprev v h₁ h₂.le]
      rintro ⟨i, -, hi⟩
      rw [hno m (Nat.lt_succ_self m)] at hi
      cases hi
    exact Core.extend_range hprev (armed_stays hnow hquiet (hd (g + 2 + m) (by omega) (by omega)))

/-- `scope_trigger` and `scope_core` refine `trigger_model`. In a window that is
`ARMED` first in cycle `a`, the model is run on the probe samples from cycle `a - 1`
on: if it never fires the core stays `ARMED` until a disarm; if it fires on sample
`i` the core accepts exactly in cycle `a - 1 + i + 2`, once, and the completed window
holds that sample at `trig_index`. -/
theorem window_follows_model (c₀ : Capture p) (a : ℕ) (hne : stAt c₀ inp (a - 1) ≠ .armed)
    (harm : stAt c₀ inp a = .armed) :
    ((∀ m, (modelAt c₀ inp a m).2 = none) → ∀ t, a ≤ t →
      (∀ v, a ≤ v → v < t → disarmAt inp v = false) →
        stAt c₀ inp t = .armed ∧ acceptsAt c₀ inp t = false) ∧
    (∀ i m, (modelAt c₀ inp a m).2 = some i →
      (∀ v, a ≤ v → v < a - 1 + i + 2 → disarmAt inp v = false) →
        (∀ v, a ≤ v → (∀ w, a ≤ w → w ≤ v → stAt c₀ inp w ≠ .filling) →
          (acceptsAt c₀ inp v = true ↔ v = a - 1 + i + 2)) ∧
        (∀ v, a ≤ v → v ≤ a - 1 + i + 2 → stAt c₀ inp v = .armed) ∧
        ∀ n, a - 1 + i + 2 < n → (∀ v, a - 1 + i + 2 < v → v ≤ n → stAt c₀ inp v = .triggered) →
          stAt c₀ inp (n + 1) = .done →
            (run c₀ inp (n + 1)).core.uBuf.mem (run c₀ inp (n + 1)).core.trigIndex =
              (inp (a - 1 + i)).probe.setWidth p.storeW) := by
  obtain ⟨g, rfl, hfill⟩ := armed_entry hne harm
  have haccept : ∀ m, (∀ v, g + 2 ≤ v → v ≤ g + 2 + m → stAt c₀ inp v = .armed) →
      (acceptsAt c₀ inp (g + 2 + m) = true ↔
        ∃ i, m = i + 1 ∧ (loopAt c₀ inp (g + 2) m).fired = some i) := by
    intro m hall
    rw [acceptsAt_seq hr hs ho c₀ (hall _ (by omega) le_rfl),
      trigSeqQ_window hfill fun v h₁ h₂ => hall v h₁ h₂.le]
  constructor
  · intro hnone t hle hd
    obtain ⟨m, rfl⟩ := Nat.exists_eq_add_of_le hle
    have hall := armed_while_silent hr hs ho hfill harm hd fun k _ => hnone k
    refine ⟨hall _ hle le_rfl, ?_⟩
    rw [← Bool.not_eq_true, haccept m hall]
    rintro ⟨i, -, hi⟩
    rw [← modelAt_snd, hnone m] at hi
    cases hi
  · intro i m hfires hd
    obtain ⟨-, hbefore, hat⟩ := loopAt_fires hfires
    have hcycle : g + 2 - 1 + i + 2 = g + 2 + (i + 1) := by omega
    rw [hcycle] at hd ⊢
    have hsilent : ∀ k < i + 1, (loopAt c₀ inp (g + 2) k).fired = none := by
      intro k hk
      by_contra hne'
      obtain ⟨j, hj⟩ := Option.ne_none_iff_exists'.mp hne'
      rw [loopAt_fired hj (Nat.lt_succ_iff.mp hk)] at hbefore
      cases hbefore
    have hall := armed_while_silent hr hs ho hfill harm hd hsilent
    refine ⟨fun v hle hw => ?_, hall, fun n hlt htrig hdone => ?_⟩
    · constructor
      · intro hv
        have hall' := armed_consecutive hle hw (accepts_armed hv)
        obtain ⟨m', rfl⟩ := Nat.exists_eq_add_of_le hle
        obtain ⟨j, rfl, hj⟩ := (haccept m' hall').mp hv
        have hij := loopAt_fired hat (le_max_left (i + 1) (j + 1))
        rw [loopAt_fired hj (le_max_right (i + 1) (j + 1))] at hij
        rw [Option.some.inj hij]
      · rintro rfl
        exact (haccept (i + 1) hall).mpr ⟨i, rfl, hat⟩
    · rw [completed_word (hall _ (by omega) le_rfl) hlt htrig hdone, sampleData, hr,
        if_neg (by simp), ← hcycle, sampleO_run]

end

/-- Comparator 0 on any sample in stage 0, then the arm. -/
def anySampleIn (n : ℕ) : CaptureIn oneBit where
  probe := 1
  trigExtI := false
  bus := if n = 0 then .wr csrTrigCombine 1 else if n = 1 then .wr csrCtrl 1 else .idle

/-- The window is `ARMED` from cycle 3 on, and its first sample fires. -/
theorem anySampleIn_follows_model :
    (modelAt (blank oneBit) anySampleIn 3 1).2 = some 0 ∧
      acceptsAt (blank oneBit) anySampleIn 4 = true := by
  have hs : SmplCtrlZero anySampleIn := by
    intro n hw ha
    unfold anySampleIn at hw ha
    split_ifs at hw ha with h0 h1
    · exact absurd ha (by decide)
    · exact absurd ha (by decide)
    · cases hw
  have ho : OwnTriggerOnly anySampleIn := by
    intro n
    unfold anySampleIn
    refine ⟨?_, rfl⟩
    split_ifs <;> decide
  have hd : ∀ v, 3 ≤ v → v < 4 → disarmAt anySampleIn v = false := by
    intro v h₁ h₂
    obtain rfl : v = 3 := by omega
    decide
  have hfill : ∀ w, 3 ≤ w → w ≤ 4 → stAt (blank oneBit) anySampleIn w ≠ .filling := by
    intro w h₁ h₂
    obtain rfl | rfl : w = 3 ∨ w = 4 := by omega
    · decide
    · decide
  have h := window_follows_model rfl hs ho (blank oneBit) 3 (by decide) (by decide)
  exact ⟨by decide, ((h.2 0 1 (by decide) hd).1 4 (by decide) hfill).mpr rfl⟩

end Capture

end FpgaScope
