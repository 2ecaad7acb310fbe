import FpgaScope.Capture.Tiling

/-! The encoder with its `flush` port in use. A flush of outstanding repeats is one more way
a cycle can go; every other cycle is one with the port low. -/

namespace FpgaScope

variable {W L : ℕ}

/-- The cycle with `flush` low. -/
def RleIn.calm (i : RleIn W) : RleIn W := { i with flush := false }

namespace Rle

/-- What a flush of outstanding repeats produces. -/
def flushed (r : Rle W L) : RleProd W L :=
  ⟨true, false, countWord W r.acc, 0, false, false, 0, r.havePrev, r.prev⟩

theorem produce_cases (r : Rle W L) (i : RleIn W) :
    r.produce i = r.produce i.calm ∨
      (i.inValid = false ∧ r.acc ≠ 0 ∧ r.produce i = r.flushed) := by
  unfold produce RleIn.calm
  cases i.enable with
  | false => exact Or.inl rfl
  | true =>
    cases hv : i.inValid with
    | true => exact Or.inl rfl
    | false =>
      cases i.flush with
      | false => exact Or.inl rfl
      | true =>
        by_cases ha : r.acc = 0
        · left
          simp [ha]
        · refine Or.inr ⟨rfl, ha, ?_⟩
          simp only [↓reduceIte, bne_iff_ne.mpr ha, Bool.false_eq_true, flushed]

/-- With a sample there is no flush. -/
theorem produce_valid {r : Rle W L} {i : RleIn W} (hv : i.inValid = true) :
    r.produce i = r.produce i.calm := by
  rcases produce_cases r i with h | ⟨hv', -⟩
  · exact h
  · rw [hv] at hv'
    cases hv'

section calm
variable {r : Rle W L} {i : RleIn W} (h : r.produce i = r.produce i.calm)
include h

theorem step_calm : r.step i = r.step i.calm := by
  unfold step
  rw [h]

theorem emitted_calm : r.emitted i = r.emitted i.calm := by
  unfold emitted wordValid word
  rw [h]

theorem trigOut_calm : r.trigOut i = r.trigOut i.calm := by
  unfold trigOut
  rw [h]

theorem produced_calm (j : ℕ) : r.produced i j = r.produced i.calm j := by
  unfold produced
  rw [h]

end calm

/-! ### The skid -/

/-- A flush finds the skid empty. -/
theorem Quiet.pendValid {r : Rle W L} (h : Quiet r) (ha : r.acc ≠ 0) : r.pendValid = false := by
  cases hp : r.pendValid with
  | false => rfl
  | true => exact absurd (h hp) ha

theorem step_flushed {r : Rle W L} {i : RleIn W} (h : Quiet r) (ha : r.acc ≠ 0)
    (hf : r.produce i = r.flushed) : r.step i = { r with acc := 0, pendValid := false } := by
  unfold step
  rw [hf, h.pendValid ha]
  rfl

theorem Quiet.step' {r : Rle W L} (h : Quiet r) (i : RleIn W) : Quiet (r.step i) := by
  rcases produce_cases r i with hcalm | ⟨-, ha, hf⟩
  · rw [step_calm hcalm]
    exact h.step i.calm rfl
  · rw [step_flushed h ha hf]
    intro
    rfl

theorem Quiet.prod1' {r : Rle W L} (h : Quiet r) (hp : r.pendValid = true) (i : RleIn W) :
    (r.produce i).prod1 = false := by
  rcases produce_cases r i with hcalm | ⟨-, -, hf⟩
  · rw [hcalm]
    exact h.prod1 hp i.calm rfl
  · rw [hf]
    rfl

theorem Bounded.step' {r : Rle W L} (h : Bounded r) (hq : Quiet r) (hL : 1 ≤ L) (i : RleIn W) :
    Bounded (r.step i) := by
  rcases produce_cases r i with hcalm | ⟨-, ha, hf⟩
  · rw [step_calm hcalm]
    exact h.step hL i.calm rfl
  · rw [step_flushed hq ha hf]
    exact Bounded.reset (W := W) hL

/-- Words leave in the order in which they are produced. -/
theorem queue_step {r : Rle W L} (h : Quiet r) (i : RleIn W) (j : ℕ) :
    r.pending ++ (r.produced i j).map Prod.fst = (r.emitted i).toList ++ (r.step i).pending := by
  rcases produce_cases r i with hcalm | ⟨-, ha, hf⟩
  · rw [step_calm hcalm, emitted_calm hcalm, produced_calm hcalm]
    exact emitted_step h rfl j
  · rw [step_flushed h ha hf]
    simp [pending, produced, emitted, wordValid, word, hf, flushed, h.pendValid ha]

/-! ### Tags -/

theorem pendTrig_step' {r : Rle W L} {i : RleIn W} (h : Quiet r)
    (hv : (r.step i).pendValid = true) (ht : (r.step i).pendTrig = true) :
    i.inValid = true ∧ i.trigIn = true ∧ r.skids i = true ∧
      (r.step i).pendWord = dataWord i.inData := by
  rcases produce_cases r i with hcalm | ⟨-, ha, hf⟩
  · rw [step_calm hcalm] at hv ht ⊢
    have hskids : r.skids i = r.skids i.calm := by rw [skids, skids, hcalm]
    rw [hskids]
    exact pendTrig_step rfl hv ht
  · rw [step_flushed h ha hf] at hv
    cases hv

theorem trigOut_cases' {r : Rle W L} {i : RleIn W} (h : Quiet r) (ht : r.trigOut i = true) :
    (r.pendValid = true ∧ r.pendTrig = true ∧ r.word i = r.pendWord) ∨
      (r.pendValid = false ∧ i.inValid = true ∧ i.trigIn = true ∧ (r.produce i).prod1 = false ∧
        r.word i = dataWord i.inData) := by
  rcases produce_cases r i with hcalm | ⟨-, ha, hf⟩
  · have hword : r.word i = r.word i.calm := by rw [word, word, hcalm]
    rw [trigOut_calm hcalm] at ht
    rw [hword, hcalm]
    exact trigOut_cases rfl ht
  · rw [trigOut, hf, h.pendValid ha] at ht
    cases ht

theorem trig_tagged' {r : Rle W L} {i : RleIn W} (h : Quiet r) (hv : i.inValid = true)
    (ht : i.trigIn = true) :
    if r.skids i then (r.step i).pendValid = true ∧ (r.step i).pendTrig = true
    else r.trigOut i = true ∧ r.wordValid i = true := by
  have hcalm := produce_valid (r := r) hv
  have hskids : r.skids i = r.skids i.calm := by rw [skids, skids, hcalm]
  have hvalid : r.wordValid i = r.wordValid i.calm := by rw [wordValid, wordValid, hcalm]
  rw [step_calm hcalm, trigOut_calm hcalm, hskids, hvalid]
  exact trig_tagged h rfl hv ht

end Rle

end FpgaScope
