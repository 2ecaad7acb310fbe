import FpgaScope.Lib.Trace
import FpgaScope.Rle.Flush

/-! The encoder loses nothing. At every cycle the words that have left it, the word in the
skid and a count for the outstanding repeats decode to the samples consumed; there are no
more words than samples; and the trigger tags mark the data words of the trigger samples. -/

namespace FpgaScope.Rle

open Clocked Host RunWord

variable {W L : ℕ}

/-! ### What a word list accounts for -/

/-- Words as data and counts. -/
def toks (l : List (BitVec (W + 1))) : List (RunWord ℕ) := l.map fun w => classify W w.toNat

theorem toks_append (l l' : List (BitVec (W + 1))) : toks (l ++ l') = toks l ++ toks l' :=
  List.map_append

theorem toks_data (v : BitVec W) : toks [dataWord v] = [.data v.toNat] :=
  congrArg (fun w => [w]) (classify_dataWord v)

theorem toks_count (hW : L ≤ W) (n : BitVec L) : toks [countWord W n] = [.count n.toNat] :=
  congrArg (fun w => [w]) (classify_countWord hW n)

theorem rleDecodeWords_toks (l : List (BitVec (W + 1))) :
    rleDecodeWords (l.map BitVec.toNat) W = decode none (toks l) := by
  rw [rleDecodeWords_eq, List.map_map]
  rfl

theorem toNat_pos_of_ne {a : BitVec L} (h : a ≠ 0) : 1 ≤ a.toNat := by
  have hz : (0 : BitVec L).toNat = 0 := BitVec.toNat_ofNat ..
  exact Nat.one_le_iff_ne_zero.mpr fun h0 => h (BitVec.eq_of_toNat_eq (h0.trans hz.symm))

/-- The words made from the samples `xs`, and the run state of the encoder behind them. -/
structure Accounts (r : Rle W L) (l : List (BitVec (W + 1))) (xs : List ℕ) : Prop where
  current : cur none (toks l) = if r.havePrev then some r.prev.toNat else none
  fresh : r.havePrev = false → r.acc = 0
  decoded : decode none (toks l) ++ List.replicate r.acc.toNat r.prev.toNat = xs
  length_le : l.length + r.acc.toNat ≤ xs.length

theorem Accounts.reset : Accounts (.reset : Rle W L) [] [] :=
  ⟨rfl, fun _ => rfl, by simp [Rle.reset, toks, decode], by simp [Rle.reset]⟩

/-- A data word when no repeats are outstanding. -/
theorem Accounts.data {r r' : Rle W L} {l : List (BitVec (W + 1))} {xs : List ℕ} (h : Accounts r l xs)
    (ha : r.acc.toNat = 0) (v : BitVec W) (hh' : r'.havePrev = true) (ha' : r'.acc.toNat = 0)
    (hp' : r'.prev = v) : Accounts r' (l ++ [dataWord v]) (xs ++ [v.toNat]) where
  current := by
    rw [toks_append, cur_append, hh', if_pos rfl, hp', toks_data]
    rfl
  fresh hf := by rw [hh'] at hf; cases hf
  decoded := by
    have hxs := h.decoded
    rw [ha, List.replicate_zero, List.append_nil] at hxs
    rw [ha', List.replicate_zero, List.append_nil, toks_append, decode_append, hxs, toks_data]
    cases cur none (toks l) <;> rfl
  length_le := by
    have := h.length_le
    rw [List.length_append, List.length_append, List.length_singleton, List.length_singleton, ha']
    omega

/-- A count word for the outstanding repeats and the `k` of this cycle. -/
theorem Accounts.count {r r' : Rle W L} {l : List (BitVec (W + 1))} {xs : List ℕ} (hW : L ≤ W)
    (h : Accounts r l xs) (hp : r.havePrev = true) (n : BitVec L) {k : ℕ} (hn : n.toNat = r.acc.toNat + k)
    (hpos : 1 ≤ n.toNat) (hh' : r'.havePrev = true) (ha' : r'.acc.toNat = 0) (hp' : r'.prev = r.prev) :
    Accounts r' (l ++ [countWord W n]) (xs ++ List.replicate k r.prev.toNat) where
  current := by
    rw [toks_append, cur_append, h.current, hp, if_pos rfl, hh', if_pos rfl, hp',
      toks_count hW]
    rfl
  fresh hf := by rw [hh'] at hf; cases hf
  decoded := by
    rw [ha', List.replicate_zero, List.append_nil, toks_append, decode_append, h.current, hp, if_pos rfl,
      toks_count hW, ← h.decoded, List.append_assoc,
      List.replicate_append_replicate, ← hn]
    change _ ++ (List.replicate n.toNat r.prev.toNat ++ []) = _
    rw [List.append_nil]
  length_le := by
    have := h.length_le
    rw [List.length_append, List.length_append, List.length_singleton, List.length_replicate, ha']
    omega

/-- A sample that only extends the run. -/
theorem Accounts.same {r r' : Rle W L} {l : List (BitVec (W + 1))} {xs : List ℕ} (h : Accounts r l xs)
    (hp : r.havePrev = true) (hh' : r'.havePrev = true) (ha' : r'.acc.toNat = r.acc.toNat + 1)
    (hp' : r'.prev = r.prev) : Accounts r' l (xs ++ [r.prev.toNat]) where
  current := by rw [h.current, hp, hh', hp']
  fresh hf := by rw [hh'] at hf; cases hf
  decoded := by rw [ha', hp', List.replicate_succ', ← List.append_assoc, h.decoded]
  length_le := by
    have := h.length_le
    rw [List.length_append, List.length_singleton, ha']
    omega

theorem Accounts.step {r : Rle W L} {i : RleIn W} {l : List (BitVec (W + 1))} {xs : List ℕ}
    (hL : 1 ≤ L) (hW : L ≤ W) (hb : Bounded r) (he : i.enable = true)
    (h : Accounts r l xs) (j : ℕ) :
    Accounts (r.step i) (l ++ (r.produced i j).map Prod.fst) (xs ++ (sampleOf i).toList) := by
  have hz : (0 : BitVec L).toNat = 0 := BitVec.toNat_ofNat ..
  obtain ⟨hacc, hprev, hhave⟩ := run_step r i
  rcases produce_cases r i with hcalm | ⟨hv, ha, hf⟩
  · have hc := produce_case r i.calm rfl
    rw [← hcalm] at hc
    unfold produced
    generalize r.produce i = d at hc hacc hprev hhave ⊢
    cases hc with
    | gap hv =>
      rw [sampleOf_gap (i := i) hv]
      simp only [Bool.false_eq_true, ↓reduceIte, List.append_nil, List.map_nil, Option.toList_none]
      exact ⟨by rw [hhave, hprev]; exact h.current, by rw [hhave, hacc]; exact h.fresh,
        by rw [hacc, hprev]; exact h.decoded, by rw [hacc]; exact h.length_le⟩
    | bypass hv he' => exact absurd (he.symm.trans he') (by decide)
    | first hv _ hp =>
      rw [sampleOf_valid (i := i) hv]
      exact h.data (by rw [h.fresh hp, hz]) i.inData hhave (by rw [hacc, hz]) hprev
    | same hv _ hp hd ht ha =>
      rw [sampleOf_valid (i := i) hv, show i.inData = r.prev from hd]
      simp only [Bool.false_eq_true, ↓reduceIte, List.append_nil, List.map_nil, Option.toList_some]
      exact h.same hp (hhave.trans hp) (by rw [hacc, acc_succ hb hL]) hprev
    | full hv _ hp hd ht ha =>
      have hmax := maxRun_toNat hL
      have hn : (maxRun L).toNat = r.acc.toNat + 1 := by
        rw [ha, hmax.2.1, hmax.1]
        omega
      rw [sampleOf_valid (i := i) hv, show i.inData = r.prev from hd]
      exact h.count hW hp (maxRun L) hn (by omega) (hhave.trans hp) (by rw [hacc, hz]) hprev
    | two hv _ hp ha hd =>
      have hcount : Accounts { r with acc := 0 } (l ++ [countWord W r.acc])
          (xs ++ List.replicate 0 r.prev.toNat) :=
        h.count hW hp r.acc rfl (toNat_pos_of_ne ha) hp hz rfl
      rw [List.replicate_zero, List.append_nil] at hcount
      rw [sampleOf_valid (i := i) hv]
      have := hcount.data hz i.inData (hhave.trans hp) (by rw [hacc, hz]) hprev
      rw [List.append_assoc] at this
      exact this
    | one hv _ hp ha hd =>
      rw [sampleOf_valid (i := i) hv]
      exact h.data (by rw [ha, hz]) i.inData (hhave.trans hp) (by rw [hacc, hz]) hprev
  · have hp : r.havePrev = true := by
      cases hp : r.havePrev with
      | true => rfl
      | false => exact absurd (h.fresh hp) ha
    rw [hf] at hacc hprev hhave
    rw [sampleOf_gap hv, produced, hf]
    exact h.count hW hp r.acc (k := 0) rfl (toNat_pos_of_ne ha) (hhave.trans hp) (by rw [hacc]; exact hz) hprev

/-! ### Runs -/

/-- A run of the encoder from reset. -/
def run (L : ℕ) (inp : ℕ → RleIn W) : ℕ → Rle W L := trace step .reset inp

/-- The samples consumed before cycle `n`. -/
def samples (inp : ℕ → RleIn W) : ℕ → List ℕ := collect fun k => sampleOf (inp k)

section
variable (L) (inp : ℕ → RleIn W)

/-- The words emitted before cycle `n`. -/
def out : ℕ → List (BitVec (W + 1)) := collect fun k => (run L inp k).emitted (inp k)

/-- The words produced before cycle `n`. -/
def made : ℕ → List (BitVec (W + 1))
  | 0 => []
  | n + 1 => made n ++ ((run L inp n).produced (inp n) (samples inp n).length).map Prod.fst

/-- The decoded position of the next word to leave. -/
def position (n : ℕ) : ℕ := (rleDecodeWords ((out L inp n).map BitVec.toNat) W).length

/-- Where `trig_out` was pulsed before cycle `n`. -/
def trigOuts : ℕ → List ℕ :=
  collect fun k => if (run L inp k).trigOut (inp k) then some (position L inp k) else none

end

/-- The indices of the trigger samples before cycle `n`. -/
def trigIns (inp : ℕ → RleIn W) : ℕ → List ℕ :=
  collect fun k => if (inp k).inValid && (inp k).trigIn then some (samples inp k).length else none

/-- `count_word(acc)` if there are repeats outstanding. -/
def outstanding (r : Rle W L) : List (BitVec (W + 1)) := if r.acc = 0 then [] else [countWord W r.acc]

variable {inp : ℕ → RleIn W}

theorem run_succ (inp : ℕ → RleIn W) (n : ℕ) : run L inp (n + 1) = (run L inp n).step (inp n) := rfl

theorem quiet_run (inp : ℕ → RleIn W) (n : ℕ) : Quiet (run L inp n) :=
  trace_invariant step .reset inp Quiet Quiet.reset (fun _ i h => h.step' i) n

theorem bounded_run (hL : 1 ≤ L) (inp : ℕ → RleIn W) (n : ℕ) : Bounded (run L inp n) :=
  invariant_of_step (fun n => Bounded (run L inp n)) (Bounded.reset hL)
    (fun n h => h.step' (quiet_run inp n) hL (inp n)) n

/-- Every word produced has left or waits in the skid. -/
theorem out_pending (inp : ℕ → RleIn W) (n : ℕ) :
    out L inp n ++ (run L inp n).pending = made L inp n := by
  induction n with
  | zero => rfl
  | succ n ih =>
    rw [made, ← ih, List.append_assoc, queue_step (quiet_run inp n), ← List.append_assoc, run_succ]
    rfl

theorem accounts_at (hL : 1 ≤ L) (hW : L ≤ W) (hen : ∀ n, (inp n).enable = true) (n : ℕ) :
    Accounts (run L inp n) (made L inp n) (samples inp n) := by
  induction n with
  | zero => exact Accounts.reset
  | succ n ih => exact ih.step hL hW (bounded_run hL inp n) (hen n) _

theorem Accounts.outstanding {r : Rle W L} {l : List (BitVec (W + 1))} {xs : List ℕ} (hW : L ≤ W)
    (h : Accounts r l xs) : decode none (toks (l ++ r.outstanding)) = xs := by
  have hxs := h.decoded
  unfold Rle.outstanding
  by_cases ha : r.acc = 0
  · rw [ha, show (0 : BitVec L).toNat = 0 from BitVec.toNat_ofNat .., List.replicate_zero,
      List.append_nil] at hxs
    rw [if_pos ha, List.append_nil, hxs]
  · have hp : r.havePrev = true := by
      cases hp : r.havePrev with
      | true => rfl
      | false => exact absurd (h.fresh hp) ha
    rw [if_neg ha, toks_append, decode_append, h.current, hp, if_pos rfl, toks_count hW, ← hxs]
    change _ ++ (List.replicate r.acc.toNat r.prev.toNat ++ []) = _
    rw [List.append_nil]

/-! ### Tags -/

theorem position_eq (inp : ℕ → RleIn W) (n : ℕ) :
    position L inp n = (decode none (toks (out L inp n))).length := by
  rw [position, rleDecodeWords_toks]

theorem decode_data (l : List (BitVec (W + 1))) (v : BitVec W) :
    decode none (toks (l ++ [dataWord v])) = decode none (toks l) ++ [v.toNat] := by
  rw [toks_append, decode_append, toks_data]
  cases cur none (toks l) <;> rfl

/-- A trigger sample ends the run before it. -/
theorem trig_closes {r : Rle W L} {i : RleIn W} (he : i.enable = true) (hv : i.inValid = true)
    (ht : i.trigIn = true) : (r.step i).acc = 0 := by
  rw [(run_step r i).1]
  have hcalm := produce_valid (r := r) hv
  have hc := produce_case r i.calm rfl
  rw [← hcalm] at hc
  generalize r.produce i = d at hc ⊢
  cases hc with
  | gap hv' => exact absurd (hv.symm.trans hv') (by decide)
  | bypass _ he' => exact absurd (he.symm.trans he') (by decide)
  | same _ _ _ _ ht' | full _ _ _ _ ht' => exact absurd (ht.symm.trans ht') (by decide)
  | first | two | one => rfl

/-- Behind a trigger sample everything is in words, the last of them its data word. -/
theorem trig_decoded (hL : 1 ≤ L) (hW : L ≤ W) (hen : ∀ n, (inp n).enable = true) {n : ℕ}
    (hv : (inp n).inValid = true) (ht : (inp n).trigIn = true) :
    decode none (toks (made L inp (n + 1))) = samples inp n ++ [(inp n).inData.toNat] := by
  have hdec := (accounts_at hL hW hen (n + 1)).decoded
  have hsamples : samples inp (n + 1) = samples inp n ++ [(inp n).inData.toNat] :=
    collect_some (sampleOf_valid hv)
  rw [run_succ, trig_closes (hen n) hv ht, show (0 : BitVec L).toNat = 0 from BitVec.toNat_ofNat ..,
    List.replicate_zero, List.append_nil, hsamples] at hdec
  exact hdec

/-- A tag in the skid marks the trigger sample of the cycle before. -/
theorem held_tag (hL : 1 ≤ L) (hW : L ≤ W) (hen : ∀ n, (inp n).enable = true) {n : ℕ}
    (hp : (run L inp (n + 1)).pendValid = true) (hword : (run L inp (n + 1)).pendWord = dataWord (inp n).inData)
    (hv : (inp n).inValid = true) (ht : (inp n).trigIn = true) :
    position L inp (n + 1) = (samples inp n).length := by
  have hdec := trig_decoded hL hW hen hv ht
  rw [← out_pending, pending, if_pos hp, hword, decode_data] at hdec
  rw [position_eq, (List.append_inj' hdec rfl).1]

/-- A tag that goes out at once marks the trigger sample of its cycle. -/
theorem sent_tag (hL : 1 ≤ L) (hW : L ≤ W) (hen : ∀ n, (inp n).enable = true) {n : ℕ}
    (hp : (run L inp n).pendValid = false) (h1 : ((run L inp n).produce (inp n)).prod1 = false)
    (hword : (run L inp n).word (inp n) = dataWord (inp n).inData)
    (hvalid : (run L inp n).wordValid (inp n) = true) (hv : (inp n).inValid = true)
    (ht : (inp n).trigIn = true) : position L inp n = (samples inp n).length := by
  have hdec := trig_decoded hL hW hen hv ht
  have hnext : (run L inp (n + 1)).pendValid = false := by
    rw [run_succ, pendValid_step, hp, h1]
    rfl
  have hout : out L inp (n + 1) = out L inp n ++ [dataWord (inp n).inData] := by
    refine collect_some ?_
    rw [emitted, hvalid, if_pos rfl, hword]
  rw [← out_pending, pending, hnext, if_neg (by simp), List.append_nil, hout, decode_data] at hdec
  rw [position_eq, (List.append_inj' hdec rfl).1]

/-- The tag in the skid, as the position it will have. -/
def heldTag (L : ℕ) (inp : ℕ → RleIn W) (n : ℕ) : List ℕ :=
  if (run L inp n).pendValid && (run L inp n).pendTrig then [position L inp n] else []

theorem trigOut_valid {r : Rle W L} {i : RleIn W} (h : r.trigOut i = true) : r.wordValid i = true := by
  unfold trigOut at h
  unfold wordValid
  cases hp : r.pendValid with
  | true => rfl
  | false =>
    rw [hp, if_neg (by simp), Bool.and_eq_true] at h
    rw [h.1, Bool.or_true]

/-- The sample of cycle `n` is a trigger sample. -/
def trigSample (inp : ℕ → RleIn W) (n : ℕ) : Bool := (inp n).inValid && (inp n).trigIn

/-- The skid takes the tag of a trigger sample whose data word it takes. -/
theorem heldTag_succ (hL : 1 ≤ L) (hW : L ≤ W) (hen : ∀ n, (inp n).enable = true) (n : ℕ) :
    heldTag L inp (n + 1) =
      if trigSample inp n && (run L inp n).skids (inp n) then [(samples inp n).length] else [] := by
  have hq := quiet_run (L := L) inp n
  unfold heldTag trigSample
  by_cases hheld : (run L inp (n + 1)).pendValid = true ∧ (run L inp (n + 1)).pendTrig = true
  · obtain ⟨hp, htag⟩ := hheld
    obtain ⟨hv, ht, hs, hword⟩ := pendTrig_step' hq hp htag
    rw [hp, htag, hv, ht, hs, held_tag hL hW hen hp hword hv ht]
    rfl
  · have hnot : ¬ (trigSample inp n && (run L inp n).skids (inp n)) = true := by
      intro h
      simp only [trigSample, Bool.and_eq_true] at h
      have htagged := trig_tagged' hq h.1.1 h.1.2
      rw [if_pos h.2] at htagged
      exact hheld htagged
    rw [if_neg (by simpa using hheld)]
    exact (if_neg hnot).symm

/-- What goes out is the tag in the skid or, past an empty one, that of the sample. -/
theorem sentTag_eq (hL : 1 ≤ L) (hW : L ≤ W) (hen : ∀ n, (inp n).enable = true) (n : ℕ) :
    (if (run L inp n).trigOut (inp n) then some (position L inp n) else none).toList =
      if (run L inp n).pendValid then heldTag L inp n
      else if trigSample inp n && !(run L inp n).skids (inp n) then [(samples inp n).length] else [] := by
  have hq := quiet_run (L := L) inp n
  cases hp : (run L inp n).pendValid with
  | true =>
    unfold heldTag trigOut
    rw [hp]
    cases (run L inp n).pendTrig <;> rfl
  | false =>
    simp only [Bool.false_eq_true, ↓reduceIte]
    cases hout : (run L inp n).trigOut (inp n) with
    | true =>
      rcases trigOut_cases' hq hout with ⟨hp', -⟩ | ⟨-, hv, ht, h1, hword⟩
      · rw [hp] at hp'
        cases hp'
      · have hpos := sent_tag hL hW hen hp h1 hword (trigOut_valid hout) hv ht
        rw [trigSample, hv, ht, skids, hp, h1, hpos]
        rfl
    | false =>
      have hnot : ¬ (trigSample inp n && !(run L inp n).skids (inp n)) = true := by
        intro h
        simp only [trigSample, Bool.and_eq_true, Bool.not_eq_true'] at h
        have htagged := trig_tagged' hq h.1.1 h.1.2
        rw [if_neg (by rw [h.2]; simp), hout] at htagged
        cases htagged.1
      rw [if_neg hnot]
      rfl

/-- Every trigger sample's tag has gone out or waits in the skid. -/
theorem tags_at (hL : 1 ≤ L) (hW : L ≤ W) (hen : ∀ n, (inp n).enable = true) (n : ℕ) :
    trigOuts L inp n ++ heldTag L inp n = trigIns inp n := by
  induction n with
  | zero => rfl
  | succ n ih =>
    have hnew : trigIns inp (n + 1) =
        trigIns inp n ++ if trigSample inp n then [(samples inp n).length] else [] := by
      rw [trigIns, collect_succ, trigSample]
      cases (inp n).inValid && (inp n).trigIn <;> rfl
    rw [trigOuts, collect_succ, sentTag_eq hL hW hen, heldTag_succ hL hW hen, hnew, ← ih, trigOuts,
      List.append_assoc, List.append_assoc]
    congr 1
    cases hp : (run L inp n).pendValid with
    | true =>
      rw [skids, hp, Bool.true_or, Bool.and_true, if_pos rfl]
    | false =>
      rw [heldTag, hp, Bool.false_and]
      cases trigSample inp n <;> cases (run L inp n).skids (inp n) <;> rfl

/-- The tagged word is the data word of its trigger sample. -/
theorem tagged_word (hL : 1 ≤ L) (hW : L ≤ W) (hen : ∀ n, (inp n).enable = true) {n : ℕ}
    (h : (run L inp n).trigOut (inp n) = true) :
    (run L inp n).wordValid (inp n) = true ∧ ∃ v : BitVec W, (run L inp n).word (inp n) = dataWord v ∧
      (samples inp (n + 1))[position L inp n]? = some v.toNat := by
  have hsample : ∀ {m : ℕ}, (inp m).inValid = true → m ≤ n →
      (samples inp (n + 1))[(samples inp m).length]? = some (inp m).inData.toNat := fun hv hle =>
    collect_getElem (sampleOf_valid hv) (by omega)
  refine ⟨trigOut_valid h, ?_⟩
  rcases trigOut_cases' (quiet_run inp n) h with ⟨hp, htag, hword⟩ | ⟨hp, hv, ht, h1, hword⟩
  · cases n with
    | zero => cases hp
    | succ m =>
      obtain ⟨hv, ht, -, hpend⟩ := pendTrig_step' (quiet_run inp m) hp htag
      exact ⟨(inp m).inData, hword.trans hpend,
        by rw [held_tag hL hW hen hp hpend hv ht]; exact hsample hv (by omega)⟩
  · exact ⟨(inp n).inData, hword,
      by rw [sent_tag hL hW hen hp h1 hword (trigOut_valid h) hv ht]; exact hsample hv le_rfl⟩

/-- The encoder is lossless. At every cycle: the words out, the skid and a count for the
outstanding repeats decode to the samples consumed; every word made is out or in the skid,
which is never overrun; the words are no more than the samples; and the tags that have gone
out are those of the trigger samples in order, at most the last one still to come, each on
the data word of its sample. -/
theorem lossless (hL : 1 ≤ L) (hW : L ≤ W) (inp : ℕ → RleIn W) (hen : ∀ n, (inp n).enable = true)
    (n : ℕ) :
    rleDecodeWords
        ((out L inp n ++ (run L inp n).pending ++ (run L inp n).outstanding).map BitVec.toNat) W =
      samples inp n ∧
    out L inp n ++ (run L inp n).pending = made L inp n ∧
    ((run L inp n).pendValid = true → ((run L inp n).produce (inp n)).prod1 = false) ∧
    (out L inp n).length + (run L inp n).pending.length ≤ (samples inp n).length ∧
    (trigOuts L inp n <+: trigIns inp n ∧ trigIns inp n <+: trigOuts L inp (n + 1)) ∧
    ((run L inp n).trigOut (inp n) = true →
      (run L inp n).wordValid (inp n) = true ∧ ∃ v : BitVec W, (run L inp n).word (inp n) = dataWord v ∧
        (samples inp (n + 1))[position L inp n]? = some v.toNat) := by
  have hacc := accounts_at hL hW hen n
  refine ⟨?_, out_pending inp n, fun hp => (quiet_run inp n).prod1' hp (inp n), ?_, ⟨?_, ?_⟩,
    tagged_word hL hW hen⟩
  · rw [rleDecodeWords_toks, out_pending, hacc.outstanding hW]
  · rw [← List.length_append, out_pending]
    have := hacc.length_le
    omega
  · rw [← tags_at hL hW hen]
    exact List.prefix_append _ _
  · rw [← tags_at hL hW hen, trigOuts, collect_succ, sentTag_eq hL hW hen, List.prefix_append_right_inj]
    cases hp : (run L inp n).pendValid with
    | true => exact List.prefix_rfl
    | false =>
      rw [heldTag, hp]
      exact List.nil_prefix

/-- A run with a trigger on one of its repeats, a change, a gap with a flush and a repeat. -/
def repeated (n : ℕ) : RleIn 3 where
  enable := true
  inData := if n < 4 then 5 else 2
  inValid := n != 6
  flush := n == 6
  trigIn := n == 2

theorem repeated_lossless :
    rleDecodeWords ((out 2 repeated 8 ++ (run 2 repeated 8).pending ++
      (run 2 repeated 8).outstanding).map BitVec.toNat) 3 = [5, 5, 5, 5, 2, 2, 2] := by
  rw [(lossless (by decide) (by decide) repeated (fun _ => rfl) 8).1]
  decide

end FpgaScope.Rle
