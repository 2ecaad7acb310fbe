import Mathlib.Data.List.Range
import Mathlib.Data.List.Infix
import Mathlib.Tactic

/-! Listings of a block of addresses from some point on, round its end. `rotated b n t`
lists `b .. b+n-1` from `b + t` on. A range that is cut into blocks of equal size and
listed round its end shows each block either in address order or, where the listing
begins inside it, rotated. -/

namespace FpgaScope.Rotation

/-- The addresses `b .. b+n-1`, listed from `b + t` on. -/
def rotated (b n t : ℕ) : List ℕ := (List.range n).map fun i => b + (t + i) % n

variable {b n t : ℕ}

@[simp] theorem rotated_length (b n t : ℕ) : (rotated b n t).length = n := by
  rw [rotated, List.length_map, List.length_range]

theorem rotated_get {i : ℕ} (hi : i < n) : (rotated b n t)[i]? = some (b + (t + i) % n) := by
  rw [rotated, List.getElem?_map, List.getElem?_range hi, Option.map_some]

theorem rotated_mod (b n t : ℕ) : rotated b n (t % n) = rotated b n t := by
  simp only [rotated, Nat.mod_add_mod]

/-- Up to the end, then from the beginning. -/
theorem rotated_eq_append (h : t ≤ n) :
    rotated b n t = List.range' (b + t) (n - t) ++ List.range' b t := by
  apply List.ext_getElem?
  intro i
  by_cases hi : i < n
  · rw [rotated_get hi]
    by_cases hlt : i < n - t
    · rw [List.getElem?_append_left (by rw [List.length_range']; exact hlt), List.getElem?_range' hlt,
        Nat.mod_eq_of_lt (by omega), Nat.one_mul, Nat.add_assoc]
    · rw [List.getElem?_append_right (by rw [List.length_range']; omega), List.length_range',
        List.getElem?_range' (by omega), Nat.one_mul, show t + i = (i - (n - t)) + n by omega,
        Nat.add_mod_right, Nat.mod_eq_of_lt (by omega)]
  · rw [List.getElem?_eq_none (by rw [rotated_length]; omega),
      List.getElem?_eq_none (by rw [List.length_append, List.length_range', List.length_range']; omega)]

theorem rotated_inj {t' : ℕ} (hn : 0 < n) : rotated b n t = rotated b n t' ↔ t % n = t' % n := by
  refine ⟨fun h => ?_, fun h => by rw [← rotated_mod b n t, h, rotated_mod]⟩
  have hfirst := congrArg (fun l => l[0]?) h
  simp only [rotated_get hn, Option.some.injEq, Nat.add_zero] at hfirst
  omega

/-! ### One block of a range -/

/-- Of an interval the part inside another one. -/
theorem filter_range' (lo hi s len : ℕ) :
    (List.range' s len).filter (fun a => decide (lo ≤ a ∧ a < hi)) =
      List.range' (max s lo) (min (s + len) hi - max s lo) := by
  induction len with
  | zero =>
    rw [show min (s + 0) hi - max s lo = 0 by omega]
    rfl
  | succ len ih =>
    rw [List.range'_1_concat, List.filter_append, ih]
    by_cases h : lo ≤ s + len ∧ s + len < hi
    · rw [List.filter_cons, if_pos (decide_eq_true h), List.filter_nil,
        show min (s + (len + 1)) hi - max s lo = (min (s + len) hi - max s lo) + 1 by omega,
        List.range'_1_concat]
      congr 2
      omega
    · rw [List.filter_cons, if_neg (by simpa using h), List.filter_nil, List.append_nil]
      congr 1
      omega

/-- Block `w` of a range of `m` blocks that is listed from inside block `q`. -/
theorem filter_block {m size q e w : ℕ} (hq : q < m) (he : e < size) (hw : w < m) :
    (rotated 0 (m * size) (q * size + e)).filter (fun a => decide (a / size = w)) =
      rotated (w * size) size (if w = q then e else 0) := by
  have hpos : 0 < size := by omega
  have hqm : (q + 1) * size ≤ m * size := Nat.mul_le_mul_right _ hq
  have hwm : (w + 1) * size ≤ m * size := Nat.mul_le_mul_right _ hw
  rw [Nat.succ_mul] at hqm hwm
  have hblock : (fun a => decide (a / size = w)) =
      fun a => decide (w * size ≤ a ∧ a < w * size + size) := by
    funext a
    rw [decide_eq_decide, Nat.div_eq_iff hpos]
    omega
  rw [hblock, rotated_eq_append (by omega), List.filter_append, filter_range', filter_range', Nat.zero_add,
    Nat.zero_max]
  rcases Nat.lt_trichotomy w q with hlt | rfl | hgt
  · have hsep : (w + 1) * size ≤ q * size := Nat.mul_le_mul_right _ hlt
    rw [Nat.succ_mul] at hsep
    rw [if_neg (by omega), rotated_eq_append (Nat.zero_le _),
      show min (q * size + e + (m * size - (q * size + e))) (w * size + size) -
        max (q * size + e) (w * size) = 0 by omega,
      show min (q * size + e) (w * size + size) - w * size = size by omega]
    simp
  · rw [if_pos rfl, rotated_eq_append he.le,
      show min (w * size + e + (m * size - (w * size + e))) (w * size + size) -
        max (w * size + e) (w * size) = size - e by omega,
      show max (w * size + e) (w * size) = w * size + e by omega,
      show min (w * size + e) (w * size + size) - w * size = e by omega]
  · have hsep : (q + 1) * size ≤ w * size := Nat.mul_le_mul_right _ hgt
    rw [Nat.succ_mul] at hsep
    rw [if_neg (by omega), rotated_eq_append (Nat.zero_le _),
      show min (q * size + e + (m * size - (q * size + e))) (w * size + size) -
        max (q * size + e) (w * size) = size by omega,
      show max (q * size + e) (w * size) = w * size by omega,
      show min (q * size + e) (w * size + size) - w * size = 0 by omega]
    simp

/-- With two blocks or more, a block that shows in one piece shows in address order. -/
theorem infix_block {m size s t w : ℕ} (hm : 2 ≤ m) (hw : w < m) (hpos : 0 < size)
    (h : rotated (w * size) size t <:+: rotated 0 (m * size) s) : t % size = 0 := by
  obtain ⟨k, hk, hget⟩ := List.infix_iff_getElem?.mp h
  rw [rotated_length, rotated_length] at hk
  have hwm : (w + 1) * size ≤ m * size := Nat.mul_le_mul_right _ hw
  have htwo : 2 * size ≤ m * size := Nat.mul_le_mul_right _ hm
  rw [Nat.succ_mul] at hwm
  have hpoint : ∀ i < size, (s + (i + k)) % (m * size) = w * size + (t + i) % size := by
    intro i hi
    have hx := hget i (by rw [rotated_length]; exact hi)
    rw [rotated_get (by omega)] at hx
    have hy : (rotated (w * size) size t)[i]? = some (w * size + (t + i) % size) := rotated_get hi
    rw [List.getElem?_eq_getElem (by rw [rotated_length]; exact hi)] at hy
    rw [Option.some.inj hy, Option.some.injEq, Nat.zero_add] at hx
    exact hx
  by_contra hne
  have hlt := Nat.mod_lt t hpos
  -- the listing goes over the end of the block inside the piece
  have hend := hpoint (size - 1 - t % size) (by omega)
  have hnext := hpoint (size - 1 - t % size + 1) (by omega)
  have hone : (t + (size - 1 - t % size)) % size = size - 1 := by
    rw [← Nat.mod_add_mod, show t % size + (size - 1 - t % size) = size - 1 by omega]
    exact Nat.mod_eq_of_lt (by omega)
  have hzero : (t + (size - 1 - t % size + 1)) % size = 0 := by
    rw [← Nat.mod_add_mod, show t % size + (size - 1 - t % size + 1) = size by omega, Nat.mod_self]
  rw [hone] at hend
  rw [hzero, Nat.add_zero, show s + (size - 1 - t % size + 1 + k) = s + (size - 1 - t % size + k) + 1 by omega,
    ← Nat.mod_add_mod, hend] at hnext
  rcases Nat.lt_or_ge (w * size + size) (m * size) with hin | hover
  · rw [Nat.mod_eq_of_lt (by omega)] at hnext
    omega
  · rw [show w * size + (size - 1) + 1 = m * size by omega, Nat.mod_self] at hnext
    omega

/-- A listing that begins with a block shows every block in one piece. -/
theorem block_infix {m size q w : ℕ} (hq : q < m) (hw : w < m) :
    rotated (w * size) size 0 <:+: rotated 0 (m * size) (q * size) := by
  have hqm : (q + 1) * size ≤ m * size := Nat.mul_le_mul_right _ hq
  have hwm : (w + 1) * size ≤ m * size := Nat.mul_le_mul_right _ hw
  rw [Nat.succ_mul] at hqm hwm
  have hpiece : ∀ {b len : ℕ}, b ≤ w * size → w * size + size ≤ b + len →
      rotated (w * size) size 0 <:+: List.range' b len := by
    intro b len h₁ h₂
    obtain ⟨k, hk⟩ := Nat.exists_eq_add_of_le h₁
    have hsplit : List.range' b len = List.range' b k ++
        (List.range' (b + k) size ++ List.range' (b + k + size) (len - (k + size))) := by
      rw [List.range'_append_1, List.range'_append_1]
      congr 1
      omega
    rw [hsplit, rotated_eq_append (Nat.zero_le _), List.range'_zero, List.append_nil, Nat.add_zero,
      Nat.sub_zero, hk]
    exact (List.prefix_append _ _).isInfix.trans (List.suffix_append _ _).isInfix
  have hlist : rotated 0 (m * size) (q * size) =
      List.range' (q * size) (m * size - q * size) ++ List.range' 0 (q * size) := by
    rw [rotated_eq_append (by omega), Nat.zero_add]
  rw [hlist]
  rcases Nat.lt_or_ge w q with hlt | hge
  · have hsep : (w + 1) * size ≤ q * size := Nat.mul_le_mul_right _ hlt
    rw [Nat.succ_mul] at hsep
    exact (hpiece (Nat.zero_le _) (by omega)).trans (List.suffix_append _ _).isInfix
  · have hsep : q * size ≤ w * size := Nat.mul_le_mul_right _ hge
    exact (hpiece hsep (by omega)).trans (List.prefix_append _ _).isInfix

end FpgaScope.Rotation
