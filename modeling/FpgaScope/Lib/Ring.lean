import Mathlib.Data.List.Basic
import Mathlib.Data.List.Range
import Mathlib.Data.Nat.ModEq
import Mathlib.Tactic

/-! A circular store of `size` slots that is written at successive positions:
element `i` of the stream goes to slot `i % size`. `Holds mem size xs lo hi`
says that the elements `lo .. hi-1` of the stream `xs` are still in their
slots. Capture buffers keep the newest `size` elements, FIFOs the unread ones;
both are instances. -/

namespace FpgaScope.Ring

variable {α : Type*} {mem mem' : ℕ → α} {size lo lo' hi : ℕ} {xs : List α}

/-- Elements `lo .. hi-1` of `xs` are in their slots. -/
def Holds (mem : ℕ → α) (size : ℕ) (xs : List α) (lo hi : ℕ) : Prop :=
  ∀ i, lo ≤ i → i < hi → xs[i]? = some (mem (i % size))

theorem Holds.empty (mem : ℕ → α) (size : ℕ) (xs : List α) (n : ℕ) : Holds mem size xs n n := by
  intro i h₁ h₂
  omega

theorem Holds.weaken (h : Holds mem size xs lo hi) (hlo : lo ≤ lo') : Holds mem size xs lo' hi :=
  fun i h₁ h₂ => h i (hlo.trans h₁) h₂

theorem Holds.append (h : Holds mem size xs lo hi) (ys : List α) :
    Holds mem size (xs ++ ys) lo hi := by
  intro i h₁ h₂
  have hi := h i h₁ h₂
  obtain ⟨hlt, -⟩ := List.getElem?_eq_some_iff.mp hi
  rw [List.getElem?_append_left hlt, hi]

theorem Holds.congr (h : Holds mem size xs lo hi) (hsize : 0 < size)
    (hmem : ∀ o < size, mem' o = mem o) : Holds mem' size xs lo hi := by
  intro i h₁ h₂
  rw [h i h₁ h₂, hmem _ (Nat.mod_lt _ hsize)]

/-- Two positions less than a full turn apart use different slots. -/
theorem mod_ne_of_lt_add {i j : ℕ} (h₁ : i < j) (h₂ : j < i + size) : i % size ≠ j % size := by
  intro h
  have hdvd : size ∣ j - i := (Nat.modEq_iff_dvd' h₁.le).mp h
  have := Nat.le_of_dvd (by omega) hdvd
  omega

/-- Writing the next element gives up at most the slot one full turn back. -/
theorem Holds.push {x : α} (h : Holds mem size xs lo hi) (hfit : hi < lo + size)
    (hx : xs[hi]? = some x) (hnew : mem' (hi % size) = x)
    (hold : ∀ o < size, o ≠ hi % size → mem' o = mem o) : Holds mem' size xs lo (hi + 1) := by
  intro i h₁ h₂
  by_cases hi' : i = hi
  · subst hi'
    rw [hx, hnew]
  · have hne : i % size ≠ hi % size := mod_ne_of_lt_add (by omega) (by omega)
    rw [h i h₁ (by omega), hold _ (Nat.mod_lt _ (by omega)) hne]

/-- The newest `size` elements, read out from the oldest slot on. -/
theorem Holds.read_out (h : Holds mem size xs lo hi) (hlo : lo + size ≤ hi) :
    (List.range size).map (fun i => mem ((hi + i) % size)) =
      (xs.drop (hi - size)).take size := by
  rcases Nat.eq_zero_or_pos size with rfl | hsize
  · simp
  · have hlast := h (hi - 1) (by omega) (by omega)
    obtain ⟨hlen, -⟩ := List.getElem?_eq_some_iff.mp hlast
    apply List.ext_getElem?
    intro i
    by_cases hi' : i < size
    · have hslot : (hi + i) % size = (hi - size + i) % size := by
        rw [show hi + i = (hi - size + i) + size by omega, Nat.add_mod_right]
      rw [List.getElem?_map, List.getElem?_range hi', List.getElem?_take_of_lt hi',
        List.getElem?_drop, h (hi - size + i) (by omega) (by omega), Option.map_some, hslot]
    · rw [List.getElem?_eq_none (by simpa using hi'), List.getElem?_eq_none (by simp; omega)]

/-! ### Turn and slot of a position -/

theorem next_turn {i n : ℕ} (hn : 0 < n) (h : i % n = n - 1) :
    (i + 1) / n = i / n + 1 ∧ (i + 1) % n = 0 := by
  have hi : i + 1 = n * (i / n + 1) := by
    have := Nat.div_add_mod i n
    rw [Nat.mul_succ]
    omega
  rw [hi, Nat.mul_div_cancel_left _ hn, Nat.mul_mod_right]
  exact ⟨rfl, rfl⟩

theorem next_slot {i n : ℕ} (h : i % n + 1 < n) :
    (i + 1) / n = i / n ∧ (i + 1) % n = i % n + 1 := by
  have hi : i + 1 = n * (i / n) + (i % n + 1) := by
    have := Nat.div_add_mod i n
    omega
  have hdiv : (n * (i / n) + (i % n + 1)) / n = i / n := by
    rw [Nat.mul_add_div (by omega), Nat.div_eq_of_lt h, Nat.add_zero]
  have hmod : (n * (i / n) + (i % n + 1)) % n = i % n + 1 := by
    rw [Nat.mul_add_mod, Nat.mod_eq_of_lt h]
  rw [← hi] at hdiv hmod
  exact ⟨hdiv, hmod⟩

/-! ### Counters -/

/-- The bit that a pointer or a count steps by. -/
theorem setWidth_ofBool (w : ℕ) (b : Bool) : (BitVec.ofBool b).setWidth w = BitVec.ofNat w b.toNat := by
  apply BitVec.eq_of_toNat_eq
  rw [BitVec.toNat_setWidth, BitVec.toNat_ofBool, BitVec.toNat_ofNat]

theorem toNat_pred {w : ℕ} {x : BitVec w} (h : x ≠ 0) : (x - 1).toNat = x.toNat - 1 := by
  have hpos : 0 < x.toNat := Nat.pos_of_ne_zero fun h0 => h (BitVec.eq_of_toNat_eq h0)
  have hw : 1 < 2 ^ w := lt_of_le_of_lt hpos x.isLt
  have hone : (1 : BitVec w).toNat = 1 := Nat.mod_eq_of_lt hw
  rw [BitVec.toNat_sub_of_le (BitVec.le_def.mpr (by rw [hone]; exact hpos)), hone]

end FpgaScope.Ring
