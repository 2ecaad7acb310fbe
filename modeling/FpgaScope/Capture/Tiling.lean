import FpgaScope.Capture.Encoder
import FpgaScope.Core.Geometry
import FpgaScope.Host.RleDecode

/-! The words of the encoder tile the sample stream. Every word is recorded with the
number of samples it reaches up to; while the encoder stays in one mode, what it
produces continues a tiling, and the skid only delays it. -/

namespace FpgaScope.Rle

open Host RunWord

variable {W L : ℕ}

/-! ### Words as data and counts -/

theorem toNat_dataWord (v : BitVec W) : (dataWord v).toNat = v.toNat := by
  rw [dataWord, BitVec.toNat_cons, Bool.toNat_false, Nat.zero_shiftLeft, Nat.zero_or]

theorem toNat_countWord (hW : L ≤ W) (n : BitVec L) :
    (countWord W n).toNat = 2 ^ W + n.toNat ∧ n.toNat < 2 ^ W := by
  have hn : n.toNat < 2 ^ W := lt_of_lt_of_le n.isLt (Nat.pow_le_pow_right (by norm_num) hW)
  refine ⟨?_, hn⟩
  have hor := Nat.two_pow_add_eq_or_of_lt hn 1
  rw [Nat.mul_one] at hor
  rw [countWord, BitVec.toNat_cons, BitVec.toNat_setWidth, Nat.mod_eq_of_lt hn, Bool.toNat_true,
    Nat.one_shiftLeft, hor]

theorem classify_dataWord (v : BitVec W) : classify W (dataWord v).toNat = .data v.toNat := by
  have hz : v.toNat >>> W = 0 := by
    rw [Nat.shiftRight_eq_div_pow, Nat.div_eq_of_lt v.isLt]
  rw [classify, toNat_dataWord, hz, Nat.one_shiftLeft, Nat.and_two_pow_sub_one_eq_mod,
    Nat.mod_eq_of_lt v.isLt]
  rfl

theorem classify_countWord (hW : L ≤ W) (n : BitVec L) :
    classify W (countWord W n).toNat = .count n.toNat := by
  obtain ⟨htoNat, hn⟩ := toNat_countWord hW n
  have hone : (2 ^ W + n.toNat) >>> W = 1 := by
    rw [Nat.shiftRight_eq_div_pow, Nat.add_div_left _ (Nat.two_pow_pos W), Nat.div_eq_of_lt hn]
  rw [classify, htoNat, hone, Nat.one_shiftLeft, Nat.and_two_pow_sub_one_eq_mod, Nat.add_mod_left,
    Nat.mod_eq_of_lt hn]
  rfl

/-! ### What a cycle produces -/

/-- The words produced in a cycle, each with the number of samples it reaches up to;
`j` samples came before. -/
def produced (r : Rle W L) (i : RleIn W) (j : ℕ) : List (BitVec (W + 1) × ℕ) :=
  let p := r.produce i
  (if p.prod0 then [(p.w0, if p.prod1 then j else j + 1)] else []) ++
    (if p.prod1 then [(p.w1, j + 1)] else [])

/-- The word that leaves the encoder in a cycle. -/
def emitted (r : Rle W L) (i : RleIn W) : Option (BitVec (W + 1)) :=
  if r.wordValid i then some (r.word i) else none

/-- The word in the skid. -/
def pending (r : Rle W L) : List (BitVec (W + 1)) := if r.pendValid then [r.pendWord] else []

theorem prod0_of_prod1 {r : Rle W L} {i : RleIn W} (hf : i.flush = false)
    (h : (r.produce i).prod1 = true) : (r.produce i).prod0 = true := by
  have hc := produce_case r i hf
  generalize r.produce i = d at h hc ⊢
  cases hc with
  | two => rfl
  | _ => cases h

/-- Words leave in the order in which they are produced. -/
theorem emitted_step {r : Rle W L} {i : RleIn W} (h : Quiet r) (hf : i.flush = false) (j : ℕ) :
    r.pending ++ (r.produced i j).map Prod.fst = (r.emitted i).toList ++ (r.step i).pending := by
  have hvalid := pendValid_step r i
  have hword := fun hq => (pend_step r i hq).1
  have hno := fun hp => h.prod1 hp i hf
  have hboth := fun h1 => prod0_of_prod1 (r := r) hf h1
  unfold pending produced emitted wordValid word
  generalize r.produce i = d at hvalid hword hno hboth ⊢
  by_cases hp : r.pendValid = true
  · have hno := hno hp
    rw [if_pos hp] at hvalid hword
    cases h0 : d.prod0 with
    | false => simp [hp, hno, h0, hvalid]
    | true => simp [hp, hno, h0, hvalid, hword (hvalid.trans h0)]
  · rw [if_neg hp] at hvalid hword
    have hp' : r.pendValid = false := by simpa using hp
    cases h1 : d.prod1 with
    | true => simp [hp', h1, hboth h1, hvalid, hword (hvalid.trans h1)]
    | false => cases h0 : d.prod0 <;> simp [hp', h1, h0, hvalid]

/-- A tag put into the skid marks the last word of the cycle, the data word of its sample. -/
theorem produced_of_pendTrig {r : Rle W L} {i : RleIn W} (hf : i.flush = false)
    (hv : (r.step i).pendValid = true) (ht : (r.step i).pendTrig = true) (j : ℕ) :
    ∃ l, r.produced i j = l ++ [(dataWord i.inData, j + 1)] := by
  have htag := (pend_step r i hv).2
  rw [pendValid_step] at hv
  rw [htag] at ht
  have hc := produce_case r i hf
  unfold produced
  generalize r.produce i = d at hv ht hc ⊢
  by_cases hp : r.pendValid = true
  · rw [if_pos hp] at ht
    cases hc with
    | gap | same | full | two => cases ht
    | bypass | first | one => exact ⟨[], rfl⟩
  · rw [if_neg hp] at hv
    cases hc with
    | two => exact ⟨[(countWord W r.acc, j)], rfl⟩
    | _ => cases hv

/-- A tag that goes out at once marks the only word of the cycle. -/
theorem produced_of_trigOut {r : Rle W L} {i : RleIn W} (hf : i.flush = false)
    (hp : r.pendValid = false) (ht : r.trigOut i = true) (j : ℕ) :
    r.produced i j = [(dataWord i.inData, j + 1)] := by
  rw [trigOut, hp, if_neg (by simp), Bool.and_eq_true] at ht
  have hc := produce_case r i hf
  unfold produced
  generalize r.produce i = d at ht hc ⊢
  cases hc with
  | gap | same => cases ht.1
  | full | two => cases ht.2
  | bypass | first | one => rfl

/-- The outstanding repeats always leave room for one more. -/
def Bounded (r : Rle W L) : Prop := r.acc.toNat + 1 < 2 ^ L

theorem maxRun_toNat (hL : 1 ≤ L) :
    (maxRun L).toNat = 2 ^ L - 1 ∧ (maxRun L - 1).toNat = 2 ^ L - 2 ∧ 2 ≤ 2 ^ L := by
  have h2 : 2 ≤ 2 ^ L := by simpa using Nat.pow_le_pow_right (n := 2) (by norm_num) hL
  have hone : (1 : BitVec L).toNat = 1 := Core.toNat_one hL
  refine ⟨BitVec.toNat_allOnes, ?_, h2⟩
  rw [BitVec.toNat_sub_of_le (BitVec.le_def.mpr ?_), maxRun, BitVec.toNat_allOnes, hone]
  · omega
  · rw [maxRun, BitVec.toNat_allOnes, hone]
    omega

theorem acc_succ {r : Rle W L} (h : Bounded r) (hL : 1 ≤ L) :
    (r.acc + 1).toNat = r.acc.toNat + 1 := by
  rw [BitVec.toNat_add, Core.toNat_one hL]
  exact Nat.mod_eq_of_lt h

theorem Bounded.reset (hL : 1 ≤ L) : Bounded (.reset : Rle W L) := by
  have h2 := (maxRun_toNat hL).2.2
  change (0#L).toNat + 1 < 2 ^ L
  simp only [BitVec.toNat_ofNat, Nat.zero_mod]
  omega

theorem Bounded.step {r : Rle W L} (h : Bounded r) (hL : 1 ≤ L) (i : RleIn W)
    (hf : i.flush = false) : Bounded (r.step i) := by
  have hzero : (0#L).toNat + 1 < 2 ^ L := Bounded.reset (W := W) hL
  have hmax := maxRun_toNat hL
  unfold Bounded at h ⊢
  rw [(run_step r i).1]
  have hc := produce_case r i hf
  generalize r.produce i = d at hc ⊢
  cases hc with
  | gap | bypass => exact h
  | first | full | two | one => exact hzero
  | same _ _ _ _ _ ha =>
    have hne : r.acc.toNat ≠ 2 ^ L - 2 := by
      rw [← hmax.2.1]
      exact fun he => ha (BitVec.eq_of_toNat_eq he)
    change (r.acc + 1).toNat + 1 < 2 ^ L
    rw [acc_succ h hL]
    omega

/-! ### One mode, one tiling -/

/-- The tiling has come to `s` and the encoder's run state accounts for the samples
since then. -/
def Tracks (r : Rle W L) (enable : Bool) (xs : List ℕ) : Option ℕ → Prop
  | none => True
  | some q => 1 ≤ q ∧
      if enable then r.havePrev = true ∧ q + r.acc.toNat = xs.length ∧
        ∀ i, q - 1 ≤ i → i < xs.length → xs[i]? = some r.prev.toNat
      else q = xs.length

/-- A word with its position, as data or count. -/
def tok (x : BitVec (W + 1) × ℕ) : RunWord ℕ × ℕ := (classify W x.1.toNat, x.2)

/-- The samples of a cycle. -/
def sampleOf (i : RleIn W) : Option ℕ := if i.inValid then some i.inData.toNat else none

theorem sampleOf_valid {i : RleIn W} (h : i.inValid = true) :
    sampleOf i = some i.inData.toNat := if_pos h

theorem sampleOf_gap {i : RleIn W} (h : i.inValid = false) : sampleOf i = none :=
  if_neg (by rw [h]; simp)

theorem tiles_data {xs : List ℕ} {s : Option ℕ} (v : ℕ) (h : ∀ q, s = some q → q = xs.length) :
    Tiles (xs ++ [v]) s [(.data v, xs.length + 1)] := by
  have hv : (xs ++ [v])[xs.length]? = some v := List.getElem?_concat_length
  refine ⟨?_, trivial⟩
  cases s with
  | none => exact ⟨by omega, hv⟩
  | some q =>
    obtain rfl := h q rfl
    exact ⟨rfl, hv⟩

/-- After a data word the run state is fresh. -/
theorem tracks_data {r : Rle W L} {xs : List ℕ} (v : BitVec W) (hh : r.havePrev = true)
    (ha : r.acc.toNat = 0) (hp : r.prev = v) :
    Tracks r true (xs ++ [v.toNat]) (some (xs.length + 1)) := by
  refine ⟨by omega, ?_⟩
  rw [if_pos rfl, ha, hp, List.length_append, List.length_singleton]
  refine ⟨hh, rfl, fun i h₁ h₂ => ?_⟩
  rw [show i = xs.length by omega, List.getElem?_concat_length]

/-- With no repeats outstanding the tiling has come to the end. -/
theorem Tracks.caught_up {r : Rle W L} {xs : List ℕ} {s : Option ℕ} (h : Tracks r true xs s)
    (ha : r.acc = 0) : ∀ q, s = some q → q = xs.length := by
  rintro q rfl
  have hlen := h.2
  rw [if_pos rfl, ha] at hlen
  have hz : (0 : BitVec L).toNat = 0 := BitVec.toNat_ofNat ..
  omega

/-- A count word for the outstanding repeats and `k` more closes the gap. -/
theorem Tracks.fits_count {r : Rle W L} {xs ys : List ℕ} {s : Option ℕ} {k : ℕ}
    (h : Tracks r true xs s) (hk : k ≤ ys.length) (hy : ∀ i < k, ys[i]? = some r.prev.toNat) :
    Fits (xs ++ ys) s (.count (r.acc.toNat + k)) (xs.length + k) := by
  cases s with
  | none => trivial
  | some q =>
    obtain ⟨hq, hrun⟩ := h
    rw [if_pos rfl] at hrun
    obtain ⟨-, hlen, hconst⟩ := hrun
    have hget : ∀ i, q - 1 ≤ i → i < xs.length + k → (xs ++ ys)[i]? = some r.prev.toNat := by
      intro i h₁ h₂
      rcases Nat.lt_or_ge i xs.length with hi | hi
      · rw [List.getElem?_append_left hi, hconst i h₁ hi]
      · rw [List.getElem?_append_right hi, hy _ (by omega)]
    refine ⟨by omega, by rw [List.length_append]; omega, fun i h₁ h₂ => ?_⟩
    rw [hget i (by omega) h₂, hget (q - 1) le_rfl (by omega)]

/-- A repeat extends the run. -/
theorem Tracks.repeats {r r' : Rle W L} {xs : List ℕ} {s : Option ℕ} (h : Tracks r true xs s)
    (hh : r'.havePrev = r.havePrev) (ha : r'.acc.toNat = r.acc.toNat + 1)
    (hp : r'.prev = r.prev) : Tracks r' true (xs ++ [r.prev.toNat]) s := by
  cases s with
  | none => trivial
  | some q =>
    obtain ⟨hq, hrun⟩ := h
    rw [if_pos rfl] at hrun
    obtain ⟨hhave, hlen, hconst⟩ := hrun
    refine ⟨hq, ?_⟩
    rw [if_pos rfl, ha, hp, List.length_append, List.length_singleton]
    refine ⟨hh.trans hhave, by omega, fun i h₁ h₂ => ?_⟩
    rcases Nat.lt_or_ge i xs.length with hi | hi
    · rw [List.getElem?_append_left hi, hconst i h₁ hi]
    · rw [show i = xs.length by omega, List.getElem?_concat_length]

/-- What a cycle produces continues the tiling over its sample. -/
theorem tracks_step {r : Rle W L} {i : RleIn W} {xs : List ℕ} {s : Option ℕ} (hW : L ≤ W)
    (hL : 1 ≤ L) (hf : i.flush = false) (hb : Bounded r) (h : Tracks r i.enable xs s) :
    Tiles (xs ++ (sampleOf i).toList) s ((r.produced i xs.length).map tok) ∧
      Tracks (r.step i) i.enable (xs ++ (sampleOf i).toList)
        (endOf s ((r.produced i xs.length).map tok)) := by
  obtain ⟨hacc, hprev, hhave⟩ := run_step r i
  have hc := produce_case r i hf
  unfold produced
  generalize r.produce i = d at hc hacc hprev hhave ⊢
  have hz : (0 : BitVec L).toNat = 0 := BitVec.toNat_ofNat ..
  cases hc with
  | gap hv =>
    rw [sampleOf_gap hv, Option.toList_none, List.append_nil]
    refine ⟨trivial, ?_⟩
    change Tracks (r.step i) i.enable xs s
    simp only [Tracks, hacc, hprev, hhave]
    exact h
  | bypass hv he =>
    rw [sampleOf_valid hv]
    simp only [Bool.false_eq_true, ↓reduceIte, List.append_nil, List.map_cons, List.map_nil, tok,
      classify_dataWord, Option.toList_some]
    refine ⟨tiles_data _ ?_, by omega, ?_⟩
    · rintro q rfl
      rw [he] at h
      exact h.2
    · rw [he, List.length_append]
      rfl
  | first hv he hp =>
    rw [he] at h ⊢
    rw [sampleOf_valid hv]
    simp only [Bool.false_eq_true, ↓reduceIte, List.append_nil, List.map_cons, List.map_nil, tok,
      classify_dataWord, Option.toList_some]
    refine ⟨tiles_data _ ?_, tracks_data _ hhave ?_ hprev⟩
    · rintro q rfl
      have hh := h.2
      rw [if_pos rfl, hp] at hh
      cases hh.1
    · rw [hacc, hz]
  | same hv he hp hd ht ha =>
    rw [he] at h ⊢
    rw [sampleOf_valid hv, hd]
    refine ⟨trivial, h.repeats hhave ?_ hprev⟩
    rw [hacc, acc_succ hb hL]
  | full hv he hp hd ht ha =>
    rw [he] at h ⊢
    have hn : (maxRun L).toNat = r.acc.toNat + 1 := by
      have hmax := maxRun_toNat hL
      rw [ha, hmax.2.1, hmax.1]
      omega
    rw [sampleOf_valid hv, hd]
    simp only [Bool.false_eq_true, ↓reduceIte, List.append_nil, List.map_cons, List.map_nil, tok,
      classify_countWord hW, Option.toList_some, hn]
    refine ⟨⟨h.fits_count (by simp) (by simp), trivial⟩, ?_⟩
    cases s with
    | none => trivial
    | some q => exact tracks_data r.prev (hhave.trans hp) (by rw [hacc, hz]) hprev
  | two hv he hp ha hd =>
    rw [he] at h ⊢
    rw [sampleOf_valid hv]
    simp only [↓reduceIte, List.cons_append, List.nil_append, List.map_cons, List.map_nil, tok,
      classify_countWord hW, classify_dataWord, Option.toList_some]
    refine ⟨⟨h.fits_count (k := 0) (by simp) (by simp), tiles_data _ ?_⟩,
      tracks_data _ (hhave.trans hp) (by rw [hacc, hz]) hprev⟩
    cases s with
    | none => rintro q ⟨⟩
    | some q =>
      rintro q' ⟨⟩
      rfl
  | one hv he hp ha hd =>
    rw [he] at h ⊢
    rw [sampleOf_valid hv]
    simp only [Bool.false_eq_true, ↓reduceIte, List.append_nil, List.map_cons, List.map_nil, tok,
      classify_dataWord, Option.toList_some]
    exact ⟨tiles_data _ (h.caught_up ha), tracks_data _ (hhave.trans hp) (by rw [hacc, hz]) hprev⟩

end FpgaScope.Rle
