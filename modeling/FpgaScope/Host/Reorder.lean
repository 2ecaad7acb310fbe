import Mathlib.Data.List.Basic
import Mathlib.Data.List.Range
import Mathlib.Data.List.OfFn
import Mathlib.Data.List.Rotate
import Mathlib.Tactic

/-! `reorder_window` of the host package: time order of one window's slice from
the trigger address, the wrap flag and the effective pretrigger count. Python
integers are `ℤ`, and `%` by a positive length is `Int.emod`. -/

namespace FpgaScope.Host

variable {α : Type*}

/-- Address of the oldest sample, relative to the slice. -/
def oldest (n : ℕ) (trigIndexRel : ℤ) (wrapped : Bool) (pretrigEff : ℤ) : ℤ :=
  if wrapped then (trigIndexRel + (n - pretrigEff)) % n else 0

theorem slot_lt {n : ℕ} (h : n ≠ 0) (z : ℤ) : (z % n).toNat < n := by
  have h₁ := Int.emod_nonneg z (show (n : ℤ) ≠ 0 by omega)
  have h₂ := Int.emod_lt_of_pos z (show (0 : ℤ) < n by omega)
  omega

/-- `reorder_window`: the ordered samples and the position of the trigger. -/
def reorderWindow (sliceBuf : List α) (trigIndexRel : ℤ) (wrapped : Bool) (pretrigEff : ℤ) :
    List α × ℤ :=
  if h : sliceBuf.length = 0 then ([], 0)
  else
    (List.ofFn fun i : Fin sliceBuf.length =>
        sliceBuf.get ⟨((oldest sliceBuf.length trigIndexRel wrapped pretrigEff + i.val) %
          sliceBuf.length).toNat, slot_lt h _⟩,
      if wrapped then pretrigEff else trigIndexRel)

/-- Reordering does not look at the samples. -/
theorem reorderWindow_map {β : Type*} (f : α → β) (l : List α) (trigIndexRel : ℤ) (wrapped : Bool)
    (pretrigEff : ℤ) : reorderWindow (l.map f) trigIndexRel wrapped pretrigEff =
      ((reorderWindow l trigIndexRel wrapped pretrigEff).1.map f,
        (reorderWindow l trigIndexRel wrapped pretrigEff).2) := by
  unfold reorderWindow
  by_cases h : l.length = 0
  · rw [dif_pos h, dif_pos (by rw [List.length_map, h]), List.map_nil]
  · rw [dif_neg h, dif_neg (by rw [List.length_map]; exact h)]
    congr 1
    apply List.ext_getElem
    · simp
    · intro i h₁ h₂
      simp

theorem reorderWindow_length (l : List α) (trigIndexRel : ℤ) (wrapped : Bool) (pretrigEff : ℤ) :
    (reorderWindow l trigIndexRel wrapped pretrigEff).1.length = l.length := by
  unfold reorderWindow
  by_cases h : l.length = 0
  · rw [dif_pos h, h, List.length_nil]
  · rw [dif_neg h, List.length_ofFn]

theorem reorderWindow_trigger (l : List α) (trigIndexRel pretrigEff : ℤ) (h : l.length ≠ 0) :
    (reorderWindow l trigIndexRel true pretrigEff).2 = pretrigEff := by
  rw [reorderWindow, dif_neg h]
  rfl

theorem reorderWindow_nonneg (l : List α) (trigIndexRel : ℕ) (wrapped : Bool) (pretrigEff : ℕ) :
    0 ≤ (reorderWindow l trigIndexRel wrapped pretrigEff).2 := by
  unfold reorderWindow
  by_cases h : l.length = 0
  · rw [dif_pos h]
  · rw [dif_neg h]
    cases wrapped <;> exact Int.natCast_nonneg _

theorem reorderWindow_get (l : List α) (trigIndexRel : ℤ) (wrapped : Bool) (pretrigEff : ℤ) {i : ℕ}
    (hi : i < l.length) : (reorderWindow l trigIndexRel wrapped pretrigEff).1[i]? =
      l[((oldest l.length trigIndexRel wrapped pretrigEff + i) % l.length).toNat]? := by
  have hne : l.length ≠ 0 := by omega
  unfold reorderWindow
  rw [dif_neg hne, List.getElem?_eq_getElem (by rw [List.length_ofFn]; exact hi), List.getElem_ofFn,
    List.getElem?_eq_getElem (slot_lt hne _)]
  rfl

/-- A count that is left out turns the list by as many places. -/
theorem reorderWindow_zero (l : List α) (trigIndexRel : ℤ) (pre : ℕ) :
    (reorderWindow l trigIndexRel true 0).1 = (reorderWindow l trigIndexRel true pre).1.rotate pre := by
  apply List.ext_getElem?
  intro i
  by_cases hi : i < l.length
  · have hlen := reorderWindow_length l trigIndexRel true pre
    have hslot : (oldest l.length trigIndexRel true 0 + i) % l.length =
        (oldest l.length trigIndexRel true pre + ((i + pre) % l.length : ℕ)) % l.length := by
      simp only [oldest, ↓reduceIte]
      push_cast
      rw [Int.emod_add_emod, Int.emod_add_emod, Int.add_emod_emod]
      congr 1
      ring
    rw [List.getElem?_rotate (by rw [hlen]; exact hi), hlen, reorderWindow_get _ _ _ _ hi,
      reorderWindow_get _ _ _ _ (Nat.mod_lt _ (by omega)), hslot]
  · rw [List.getElem?_eq_none (by rw [reorderWindow_length]; omega),
      List.getElem?_eq_none (by rw [List.length_rotate, reorderWindow_length]; omega)]

/-- Every slot is read. -/
theorem slot_surj {n k : ℕ} (hk : k < n) (z : ℤ) : ∃ i < n, ((z + i) % n).toNat = k := by
  have hne : (n : ℤ) ≠ 0 := by omega
  have hpos := Int.emod_nonneg (k - z) hne
  have hlt := Int.emod_lt_of_pos (k - z) (show (0 : ℤ) < n by omega)
  refine ⟨((k - z) % n).toNat, by omega, ?_⟩
  rw [Int.toNat_of_nonneg hpos, Int.add_emod_emod, add_sub_cancel, Int.emod_eq_of_lt (by omega) (by omega),
    Int.toNat_natCast]

/-- Reordering loses nothing. -/
theorem reorderWindow_inj {l l' : List α} {trigIndexRel pretrigEff : ℤ} {wrapped : Bool} :
    (reorderWindow l trigIndexRel wrapped pretrigEff).1 =
      (reorderWindow l' trigIndexRel wrapped pretrigEff).1 ↔ l = l' := by
  refine ⟨fun h => ?_, fun h => by rw [h]⟩
  have hlen : l.length = l'.length := by
    have := congrArg List.length h
    rwa [reorderWindow_length, reorderWindow_length] at this
  apply List.ext_getElem?
  intro k
  by_cases hk : k < l.length
  · obtain ⟨i, hi, hslot⟩ := slot_surj hk (oldest l.length trigIndexRel wrapped pretrigEff)
    have hleft := reorderWindow_get l trigIndexRel wrapped pretrigEff hi
    have hright := reorderWindow_get l' trigIndexRel wrapped pretrigEff (hlen ▸ hi)
    rw [hslot] at hleft
    rw [← hlen, hslot] at hright
    rw [← hleft, h, hright]
  · rw [List.getElem?_eq_none (by omega), List.getElem?_eq_none (by omega)]

/-- A rotation of a slice given by its slots, when the oldest slot is known as a
natural number up to full turns. -/
theorem reorderWindow_wrapped (slot : ℕ → α) (n trig pre oldestSlot : ℕ) (hn : 0 < n)
    (h : (oldestSlot : ℤ) % n = (trig + (n - pre)) % n) :
    reorderWindow ((List.range n).map slot) trig true pre =
      ((List.range n).map fun i => slot ((oldestSlot + i) % n), (pre : ℤ)) := by
  have hlen : ((List.range n).map slot).length = n := by simp
  unfold reorderWindow
  rw [dif_neg (by omega)]
  congr 1
  apply List.ext_getElem
  · simp
  · intro i h₁ h₂
    have hi : i < n := by simpa using h₂
    simp only [List.getElem_ofFn, List.get_eq_getElem, List.getElem_map, List.getElem_range,
      List.length_map, List.length_range]
    congr 1
    have hmod : (oldest n trig true pre + i) % (n : ℤ) = ((oldestSlot + i : ℕ) : ℤ) % n := by
      rw [oldest, if_pos rfl, ← h, Int.emod_add_emod]
      push_cast
      rfl
    change ((oldest n trig true pre + i) % (n : ℤ)).toNat = (oldestSlot + i) % n
    rw [hmod, ← Int.natCast_emod, Int.toNat_natCast]

end FpgaScope.Host
