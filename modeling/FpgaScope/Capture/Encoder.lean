import FpgaScope.Rtl.Rle

/-! One cycle of the run-length encoder. `Case` lists what a cycle can produce; the
skid never overflows because it is only filled with no repeats outstanding; and a
trigger tag rides the data word of its own sample, at most one cycle late. -/

namespace FpgaScope.Rle

variable {W L : ℕ}

/-- The ways a cycle can go: no sample, bypass, and the five fates of a sample under
the encoder. -/
inductive Case (r : Rle W L) (i : RleIn W) : RleProd W L → Prop
  | gap (hv : i.inValid = false) :
      Case r i ⟨false, false, 0, 0, false, false, r.acc, r.havePrev, r.prev⟩
  | bypass (hv : i.inValid = true) (he : i.enable = false) :
      Case r i ⟨true, false, dataWord i.inData, 0, i.trigIn, false, r.acc, r.havePrev, r.prev⟩
  | first (hv : i.inValid = true) (he : i.enable = true) (hp : r.havePrev = false) :
      Case r i ⟨true, false, dataWord i.inData, 0, i.trigIn, false, 0, true, i.inData⟩
  | same (hv : i.inValid = true) (he : i.enable = true) (hp : r.havePrev = true)
      (hd : i.inData = r.prev) (ht : i.trigIn = false) (ha : r.acc ≠ maxRun L - 1) :
      Case r i ⟨false, false, 0, 0, false, false, r.acc + 1, r.havePrev, r.prev⟩
  | full (hv : i.inValid = true) (he : i.enable = true) (hp : r.havePrev = true)
      (hd : i.inData = r.prev) (ht : i.trigIn = false) (ha : r.acc = maxRun L - 1) :
      Case r i ⟨true, false, countWord W (maxRun L), 0, false, false, 0, r.havePrev, r.prev⟩
  | two (hv : i.inValid = true) (he : i.enable = true) (hp : r.havePrev = true) (ha : r.acc ≠ 0)
      (hd : i.inData ≠ r.prev ∨ i.trigIn = true) :
      Case r i ⟨true, true, countWord W r.acc, dataWord i.inData, false, i.trigIn, 0, r.havePrev,
        i.inData⟩
  | one (hv : i.inValid = true) (he : i.enable = true) (hp : r.havePrev = true) (ha : r.acc = 0)
      (hd : i.inData ≠ r.prev ∨ i.trigIn = true) :
      Case r i ⟨true, false, dataWord i.inData, 0, i.trigIn, false, 0, r.havePrev, i.inData⟩

theorem produce_case (r : Rle W L) (i : RleIn W) (hf : i.flush = false) :
    Case r i (r.produce i) := by
  unfold produce
  cases hv : i.inValid with
  | false =>
    simp only [hf, Bool.false_eq_true, ↓reduceIte, ite_self]
    exact .gap hv
  | true =>
    cases he : i.enable with
    | false =>
      simp only [Bool.false_eq_true, ↓reduceIte]
      exact .bypass hv he
    | true =>
      cases hp : r.havePrev with
      | false =>
        simp only [Bool.not_false, ↓reduceIte]
        exact .first hv he hp
      | true =>
        by_cases hs : i.inData = r.prev ∧ i.trigIn = false
        · have hs' : (i.inData == r.prev && !i.trigIn) = true := by simp [hs.1, hs.2]
          simp only [Bool.not_true, Bool.false_eq_true, hs', ↓reduceIte]
          by_cases ha : r.acc = maxRun L - 1
          · simp only [beq_iff_eq.mpr ha, ↓reduceIte]
            exact hp ▸ .full hv he hp hs.1 hs.2 ha
          · simp only [beq_iff_eq, ha, ↓reduceIte]
            exact hp ▸ .same hv he hp hs.1 hs.2 ha
        · have hs' : (i.inData == r.prev && !i.trigIn) = false := by
            by_contra hc
            exact hs (by simpa using hc)
          have hd : i.inData ≠ r.prev ∨ i.trigIn = true := by
            by_cases h : i.inData = r.prev
            · exact Or.inr (by simpa [h] using hs)
            · exact Or.inl h
          simp only [Bool.not_true, Bool.false_eq_true, hs', ↓reduceIte]
          by_cases ha : r.acc = 0
          · simp only [bne_iff_ne, ne_eq, ha, not_true_eq_false, ↓reduceIte]
            exact hp ▸ .one hv he hp ha hd
          · simp only [bne_iff_ne.mpr ha, ↓reduceIte]
            exact hp ▸ .two hv he hp ha hd

/-! ### The skid -/

/-- The last word produced in this cycle waits in the skid. -/
def skids (r : Rle W L) (i : RleIn W) : Bool := r.pendValid || (r.produce i).prod1

/-- A word waits in the skid only while no repeats are outstanding, so a second word
of a value change always finds it empty. -/
def Quiet (r : Rle W L) : Prop := r.pendValid = true → r.acc = 0

theorem Quiet.reset : Quiet (.reset : Rle W L) := fun h => by cases h

theorem pendValid_step (r : Rle W L) (i : RleIn W) :
    (r.step i).pendValid = if r.pendValid then (r.produce i).prod0 else (r.produce i).prod1 := by
  unfold step
  by_cases hp : r.pendValid = true
  · simp [hp]
  · by_cases h1 : (r.produce i).prod1 = true <;> simp [hp, h1]

theorem pend_step (r : Rle W L) (i : RleIn W) (h : (r.step i).pendValid = true) :
    (r.step i).pendWord = (if r.pendValid then (r.produce i).w0 else (r.produce i).w1) ∧
      (r.step i).pendTrig = (if r.pendValid then (r.produce i).t0 else (r.produce i).t1) := by
  rw [pendValid_step] at h
  unfold step
  by_cases hp : r.pendValid = true
  · simp [hp]
  · have h1 : (r.produce i).prod1 = true := by simpa [hp] using h
    simp [hp, h1]

/-- The run state does not depend on the skid. -/
theorem run_step (r : Rle W L) (i : RleIn W) :
    (r.step i).acc = (r.produce i).accN ∧ (r.step i).prev = (r.produce i).prevN ∧
      (r.step i).havePrev = (r.produce i).haveN := by
  unfold step
  by_cases hp : r.pendValid = true
  · simp [hp]
  · by_cases h1 : (r.produce i).prod1 = true <;> simp [hp, h1]

theorem Quiet.step {r : Rle W L} (h : Quiet r) (i : RleIn W) (hf : i.flush = false) :
    Quiet (r.step i) := by
  intro hv
  rw [pendValid_step] at hv
  rw [(run_step r i).1]
  have hc := produce_case r i hf
  generalize r.produce i = d at hv hc ⊢
  cases hc with
  | gap | same => simp at hv
  | bypass =>
    by_cases hp : r.pendValid = true
    · exact h hp
    · simp [hp] at hv
  | first | full | two | one => rfl

/-- With the skid occupied no second word is produced. -/
theorem Quiet.prod1 {r : Rle W L} (h : Quiet r) (hp : r.pendValid = true) (i : RleIn W)
    (hf : i.flush = false) : (r.produce i).prod1 = false := by
  have hc := produce_case r i hf
  generalize r.produce i = d at hc ⊢
  cases hc with
  | two _ _ _ ha _ => exact absurd (h hp) ha
  | _ => rfl

/-- Without a word at the output the repeat counter stands still or counts a sample. -/
theorem silent_step {r : Rle W L} {i : RleIn W} (hf : i.flush = false)
    (h : r.wordValid i = false) :
    (i.inValid = false ∧ (r.step i).acc = r.acc) ∨
      (r.acc ≠ maxRun L - 1 ∧ (r.step i).acc = r.acc + 1) := by
  rw [(run_step r i).1]
  have hc := produce_case r i hf
  simp only [wordValid, Bool.or_eq_false_iff] at h
  generalize r.produce i = d at h hc ⊢
  cases hc with
  | gap hv => exact Or.inl ⟨hv, rfl⟩
  | same _ _ _ _ _ ha => exact Or.inr ⟨ha, rfl⟩
  | bypass | first | full | two | one => cases h.2

/-! ### Trigger tags -/

/-- A tag in the skid was put there by the trigger sample of the cycle before. -/
theorem pendTrig_step {r : Rle W L} {i : RleIn W} (hf : i.flush = false)
    (hv : (r.step i).pendValid = true) (ht : (r.step i).pendTrig = true) :
    i.inValid = true ∧ i.trigIn = true ∧ r.skids i = true ∧
      (r.step i).pendWord = dataWord i.inData := by
  obtain ⟨hword, htag⟩ := pend_step r i hv
  rw [pendValid_step] at hv
  unfold skids
  have hc := produce_case r i hf
  generalize r.produce i = d at hv hword htag hc ⊢
  by_cases hp : r.pendValid = true
  · rw [if_pos hp] at hword htag
    rw [htag] at ht
    rw [hword, hp, Bool.true_or]
    cases hc with
    | gap | same | full | two => cases ht
    | bypass hv' | first hv' | one hv' => exact ⟨hv', ht, rfl, rfl⟩
  · rw [if_neg hp] at hv
    rw [if_neg hp] at hword htag
    rw [htag] at ht
    rw [hword, hv, Bool.or_true]
    cases hc with
    | two hv' => exact ⟨hv', ht, rfl, rfl⟩
    | _ => cases hv

/-- A tag at the output comes from the skid or from the trigger sample of this cycle. -/
theorem trigOut_cases {r : Rle W L} {i : RleIn W} (hf : i.flush = false)
    (ht : r.trigOut i = true) :
    (r.pendValid = true ∧ r.pendTrig = true ∧ r.word i = r.pendWord) ∨
      (r.pendValid = false ∧ i.inValid = true ∧ i.trigIn = true ∧ (r.produce i).prod1 = false ∧
        r.word i = dataWord i.inData) := by
  unfold trigOut at ht
  unfold word
  by_cases hp : r.pendValid = true
  · rw [if_pos hp] at ht
    exact Or.inl ⟨hp, ht, if_pos hp⟩
  · rw [if_neg hp, Bool.and_eq_true] at ht
    rw [if_neg hp, if_pos ht.1]
    have hp' : r.pendValid = false := by simpa using hp
    have hc := produce_case r i hf
    generalize r.produce i = d at ht hc ⊢
    cases hc with
    | gap | same => cases ht.1
    | full | two => cases ht.2
    | bypass hv | first hv | one hv => exact Or.inr ⟨hp', hv, ht.2, rfl, rfl⟩

/-- A trigger sample goes to the skid if a word waits there or repeats are outstanding. -/
theorem skids_trigger {r : Rle W L} {i : RleIn W} (hv : i.inValid = true)
    (ht : i.trigIn = true) :
    r.skids i = (r.pendValid || (i.enable && r.havePrev && r.acc != 0)) := by
  unfold skids
  congr 1
  cases he : i.enable <;> cases hh : r.havePrev <;> by_cases ha : r.acc = 0#L <;>
    simp [produce, he, hh, ha, hv, ht]

/-- A trigger sample puts its tag on the output now or into the skid. -/
theorem trig_tagged {r : Rle W L} {i : RleIn W} (h : Quiet r) (hf : i.flush = false)
    (hv : i.inValid = true) (ht : i.trigIn = true) :
    if r.skids i then (r.step i).pendValid = true ∧ (r.step i).pendTrig = true
    else r.trigOut i = true ∧ r.wordValid i = true := by
  have hvalid := pendValid_step r i
  have htag := fun hq => (pend_step r i hq).2
  have hno := fun hp => h.prod1 hp i hf
  have hc := produce_case r i hf
  unfold skids trigOut wordValid
  generalize r.produce i = d at hvalid htag hno hc ⊢
  by_cases hp : r.pendValid = true
  · have hno := hno hp
    rw [if_pos hp] at hvalid htag
    rw [hp, Bool.true_or, if_pos rfl]
    cases hc with
    | gap hv' => rw [hv] at hv'; cases hv'
    | same _ _ _ _ ht' | full _ _ _ _ ht' => rw [ht] at ht'; cases ht'
    | two => cases hno
    | bypass | first | one => exact ⟨hvalid, (htag hvalid).trans ht⟩
  · have hp' : r.pendValid = false := by simpa using hp
    rw [if_neg hp] at hvalid htag
    rw [hp', Bool.false_or]
    cases hc with
    | gap hv' => rw [hv] at hv'; cases hv'
    | same _ _ _ _ ht' | full _ _ _ _ ht' => rw [ht] at ht'; cases ht'
    | two => exact ⟨hvalid, (htag hvalid).trans ht⟩
    | bypass | first | one => simp [ht]

end FpgaScope.Rle
