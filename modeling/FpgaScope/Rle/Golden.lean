import FpgaScope.Rle.Lossless
import FpgaScope.Sim.RleModel

/-! The encoder against the golden encoder. Without triggers the words made so far and what
the golden encoder makes of any further samples behind the run state are what it makes of
the whole stream; the flush at the end makes the last of them. -/

namespace FpgaScope.Rle

open Clocked Host RunWord

variable {W L : ℕ}

/-- The golden words of the samples to come. -/
def cont (r : Rle W L) (rest : List ℕ) : List (RunWord ℕ) :=
  if r.havePrev then online (2 ^ L - 1) r.prev.toNat r.acc.toNat rest else encode (2 ^ L - 1) rest

/-- The words of a word list are the golden pairs, packed. -/
theorem toNat_eq_pack (w : BitVec (W + 1)) :
    w.toNat = Sim.packWord W (Sim.pair (classify W w.toNat)) := by
  have hmask : ∀ a : ℕ, (a &&& ((1 <<< W) - 1)) &&& ((1 <<< W) - 1) = a % 2 ^ W := by
    intro a
    rw [Nat.one_shiftLeft, Nat.and_two_pow_sub_one_eq_mod, Nat.and_two_pow_sub_one_eq_mod, Nat.mod_mod]
  have hlt := w.isLt
  have hq : w.toNat / 2 ^ W < 2 := Nat.div_lt_of_lt_mul (by rwa [pow_succ] at hlt)
  have hw := Nat.two_pow_add_eq_or_of_lt (Nat.mod_lt w.toNat (Nat.two_pow_pos W)) (w.toNat / 2 ^ W)
  rw [Nat.div_add_mod] at hw
  unfold classify
  rw [Nat.shiftRight_eq_div_pow]
  rcases Nat.le_one_iff_eq_zero_or_eq_one.mp (Nat.le_of_lt_succ hq) with h | h
  · rw [h, Nat.mul_zero] at hw
    rw [h]
    change _ = (0 &&& 1) <<< W ||| ((w.toNat &&& ((1 <<< W) - 1)) &&& ((1 <<< W) - 1))
    rw [hmask, Nat.zero_and, Nat.zero_shiftLeft]
    exact hw
  · rw [h, Nat.mul_one] at hw
    rw [h]
    change _ = (1 &&& 1) <<< W ||| ((w.toNat &&& ((1 <<< W) - 1)) &&& ((1 <<< W) - 1))
    rw [hmask, Nat.and_self, Nat.one_shiftLeft]
    exact hw

theorem map_pack (l : List (BitVec (W + 1))) :
    l.map BitVec.toNat = ((toks l).map Sim.pair).map (Sim.packWord W) := by
  rw [toks, List.map_map, List.map_map]
  exact List.map_congr_left fun w _ => toNat_eq_pack w

/-- A sample takes from the golden words what the encoder produces. -/
theorem cont_step {r : Rle W L} {i : RleIn W} (hL : 1 ≤ L) (hW : L ≤ W) (hb : Bounded r) (he : i.enable = true) (ht : i.trigIn = false)
    (hf : i.flush = false) (rest : List ℕ) (j : ℕ) :
    cont r ((sampleOf i).toList ++ rest) =
      toks ((r.produced i j).map Prod.fst) ++ cont (r.step i) rest := by
  have hz : (0 : BitVec L).toNat = 0 := BitVec.toNat_ofNat ..
  have hmax := maxRun_toNat hL
  obtain ⟨hacc, hprev, hhave⟩ := run_step r i
  have hc := produce_case r i hf
  unfold produced cont
  rw [hacc, hprev, hhave]
  generalize r.produce i = d at hc
  cases hc with
  | gap hv =>
    rw [sampleOf_gap hv]
    rfl
  | bypass hv he' => exact absurd (he.symm.trans he') (by decide)
  | first hv _ hp =>
    rw [sampleOf_valid hv, hp, hz]
    exact congrArg (· :: online _ _ _ rest) (classify_dataWord i.inData).symm
  | same hv _ hp hd _ ha =>
    have hne : r.acc.toNat + 1 ≠ 2 ^ L - 1 := by
      intro h
      exact ha (BitVec.eq_of_toNat_eq (by rw [hmax.2.1]; omega))
    rw [sampleOf_valid hv, hp, hd, acc_succ hb hL]
    change online _ _ _ (r.prev.toNat :: rest) = online _ _ _ rest
    rw [online, if_pos rfl, if_neg hne]
  | full hv _ hp hd _ ha =>
    have hfull : r.acc.toNat + 1 = 2 ^ L - 1 := by
      rw [ha, hmax.2.1]
      omega
    rw [sampleOf_valid hv, hp, hd, hz]
    change online _ _ _ (r.prev.toNat :: rest) = toks [countWord W (maxRun L)] ++ online _ _ _ rest
    rw [online, if_pos rfl, if_pos hfull, toks_count hW, hmax.1]
    rfl
  | two hv _ hp ha hd =>
    have hne : i.inData.toNat ≠ r.prev.toNat := fun h => by
      rcases hd with hd | hd
      · exact hd (BitVec.eq_of_toNat_eq h)
      · exact absurd (ht.symm.trans hd) (by decide)
    have hpos : r.acc.toNat ≠ 0 := Nat.one_le_iff_ne_zero.mp (toNat_pos_of_ne ha)
    rw [sampleOf_valid hv, hp, hz]
    change online _ _ _ (i.inData.toNat :: rest) =
      toks ([countWord W r.acc] ++ [dataWord i.inData]) ++ online _ _ _ rest
    rw [online, if_neg hne, if_neg hpos, toks_append, toks_count hW, toks_data]
    rfl
  | one hv _ hp ha hd =>
    have hne : i.inData.toNat ≠ r.prev.toNat := fun h => by
      rcases hd with hd | hd
      · exact hd (BitVec.eq_of_toNat_eq h)
      · exact absurd (ht.symm.trans hd) (by decide)
    rw [sampleOf_valid hv, hp, ha, hz]
    change online _ _ _ (i.inData.toNat :: rest) = toks [dataWord i.inData] ++ online _ _ _ rest
    rw [online, if_neg hne, if_pos rfl, toks_data]
    rfl

/-- Without a sample and with no repeats outstanding nothing is produced. -/
theorem idle_step {r : Rle W L} {i : RleIn W} (hv : i.inValid = false) (ha : r.acc = 0) (j : ℕ) :
    r.produced i j = [] ∧ (r.step i).pendValid = false ∧ (r.step i).acc = 0 := by
  have hcalm : r.produce i = r.produce i.calm := (produce_cases r i).resolve_right fun h => h.2.1 ha
  have hc := produce_case r i.calm rfl
  have hpend := pendValid_step r i
  have hacc := (run_step r i).1
  rw [← hcalm] at hc
  unfold produced
  generalize r.produce i = d at hc hpend hacc ⊢
  cases hc with
  | gap => exact ⟨rfl, hpend.trans (ite_self _), hacc.trans ha⟩
  | bypass hv' | first hv' | same hv' | full hv' | two hv' | one hv' =>
    exact absurd (hv.symm.trans hv') (by decide)

/-- A flush produces the golden words that are left at the end of the stream. -/
theorem flush_step {r : Rle W L} {i : RleIn W} (hW : L ≤ W) (hq : Quiet r)
    (hfresh : r.havePrev = false → r.acc = 0) (he : i.enable = true) (hv : i.inValid = false)
    (hf : i.flush = true) (j : ℕ) :
    cont r [] = toks ((r.produced i j).map Prod.fst) ∧ (r.step i).pendValid = false ∧
      (r.step i).acc = 0 := by
  by_cases ha : r.acc = 0
  · obtain ⟨hprod, hpend, hacc⟩ := idle_step hv ha j
    rw [hprod]
    refine ⟨?_, hpend, hacc⟩
    rw [cont, ha, show (0 : BitVec L).toNat = 0 from BitVec.toNat_ofNat ..]
    exact ite_self _
  · have hp : r.havePrev = true := by
      cases hp : r.havePrev with
      | true => rfl
      | false => exact absurd (hfresh hp) ha
    have hpos : r.acc.toNat ≠ 0 := Nat.one_le_iff_ne_zero.mp (toNat_pos_of_ne ha)
    have hprod : r.produce i = r.flushed := by
      simp only [produce, he, hv, hf, ↓reduceIte, Bool.false_eq_true, bne_iff_ne.mpr ha, flushed]
    rw [step_flushed hq ha hprod, produced, hprod, cont, hp, if_pos rfl, online, if_neg hpos]
    exact ⟨(toks_count hW r.acc).symm, rfl, rfl⟩

/-! ### One stream, one flush -/

/-- A session of the testbench: the encoder on, no triggers, and one flush in cycle `f` after
the last sample. -/
structure Session (inp : ℕ → RleIn W) (f : ℕ) : Prop where
  enable : ∀ n, (inp n).enable = true
  trigIn : ∀ n, (inp n).trigIn = false
  flush : ∀ n, (inp n).flush = decide (n = f)
  idle : ∀ n, f ≤ n → (inp n).inValid = false

variable {inp : ℕ → RleIn W} {f : ℕ}

/-- Up to the flush the words made and the golden words still to come are the golden words. -/
theorem cont_at (hL : 1 ≤ L) (hW : L ≤ W) (h : Session inp f) {n : ℕ} (hn : n ≤ f) (rest : List ℕ) :
    toks (made L inp n) ++ cont (run L inp n) rest = encode (2 ^ L - 1) (samples inp n ++ rest) := by
  induction n generalizing rest with
  | zero => rfl
  | succ n ih =>
    have hcalm : (inp n).flush = false := by rw [h.flush, decide_eq_false (by omega)]
    rw [samples, collect_succ, List.append_assoc, ← samples, ← ih (by omega),
      cont_step hL hW (bounded_run hL inp n) (h.enable n) (h.trigIn n) hcalm rest (samples inp n).length,
      made, toks_append, List.append_assoc, run_succ]

/-- The golden words are made and nothing is left of the run. -/
structure Finished (L : ℕ) (inp : ℕ → RleIn W) (xs : List ℕ) (n : ℕ) : Prop where
  words : toks (made L inp n) = encode (2 ^ L - 1) xs
  pendValid : (run L inp n).pendValid = false
  acc : (run L inp n).acc = 0

theorem finished_flush (hL : 1 ≤ L) (hW : L ≤ W) (h : Session inp f) :
    Finished L inp (samples inp f) (f + 1) := by
  have hflush : (inp f).flush = true := by rw [h.flush, decide_eq_true rfl]
  obtain ⟨hcont, hpend, hacc⟩ := flush_step hW (quiet_run inp f) (accounts_at hL hW h.enable f).fresh
    (h.enable f) (h.idle f le_rfl) hflush (samples inp f).length
  refine ⟨?_, hpend, hacc⟩
  rw [made, toks_append, ← hcont, cont_at hL hW h le_rfl, List.append_nil]

theorem Finished.step {xs : List ℕ} {n : ℕ} (h : Finished L inp xs n) (hv : (inp n).inValid = false) :
    Finished L inp xs (n + 1) := by
  obtain ⟨hprod, hpend, hacc⟩ := idle_step hv h.acc (samples inp n).length
  refine ⟨?_, hpend, hacc⟩
  rw [made, hprod, List.map_nil, List.append_nil, h.words]

theorem finished_at (hL : 1 ≤ L) (hW : L ≤ W) (h : Session inp f) {n : ℕ} (hn : f < n) :
    Finished L inp (samples inp f) n := by
  induction n, hn using Nat.le_induction with
  | base => exact finished_flush hL hW h
  | succ n hn ih => exact ih.step (h.idle n (by omega))

/-- Over any stream with any gaps, the words emitted once the flush has been are those of
`rle_encode`, which returns, packed; and `rle_decode` gives the samples back. -/
theorem golden_encoder (hL : 1 ≤ L) (hW : L ≤ W) (inp : ℕ → RleIn W) (f : ℕ) (h : Session inp f)
    (n : ℕ) (hn : f < n) :
    ∃ words, (∀ fuel, (samples inp f).length < fuel → Sim.rleEncode fuel (samples inp f) L = some words) ∧
      (out L inp n).map BitVec.toNat = words.map (Sim.packWord W) ∧
      Sim.rleDecode words = (samples inp f).map some := by
  have hfin := finished_at hL hW h hn
  have hout : out L inp n = made L inp n := by
    rw [← out_pending, pending, hfin.pendValid, if_neg (by simp), List.append_nil]
  refine ⟨(encode (2 ^ L - 1) (samples inp f)).map Sim.pair, fun fuel hfuel => Sim.rleEncode_eq hL hfuel,
    ?_, Sim.rleDecode_encode _ _⟩
  rw [hout, map_pack, hfin.words]

/-- Seven equal samples with a gap, at a largest count of three: two full counts. -/
def sevenFives (n : ℕ) : RleIn 3 where
  enable := true
  inData := 5
  inValid := decide (n < 8) && n != 3
  flush := decide (n = 9)
  trigIn := false

theorem sevenFives_golden :
    ∃ words, (∀ fuel, 7 < fuel → Sim.rleEncode fuel (samples sevenFives 9) 2 = some words) ∧
      (out 2 sevenFives 10).map BitVec.toNat = words.map (Sim.packWord 3) ∧
      Sim.rleDecode words = (samples sevenFives 9).map some :=
  golden_encoder (by decide) (by decide) sevenFives 9
    ⟨fun _ => rfl, fun _ => rfl, fun _ => rfl, fun n hn => by
      rw [sevenFives, decide_eq_false (by omega), Bool.false_and]⟩ 10 (by decide)

end FpgaScope.Rle
