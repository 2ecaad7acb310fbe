import Mathlib.Data.BitVec
import Mathlib.Data.Nat.Bitwise
import Mathlib.Tactic

/-! Gray codes of fixed-width counters. Consecutive codes differ in one bit, so a
word sampled while the counter steps, each bit on its own, is the old or the new
code; and half a turn ahead is seen in the top two bits. -/

namespace FpgaScope

variable {w : ℕ}

/-- Binary-reflected Gray code. -/
def gray (x : BitVec w) : BitVec w := (x >>> 1) ^^^ x

theorem gray_xor (x y : BitVec w) : gray (x ^^^ y) = gray x ^^^ gray y := by
  rw [gray, gray, gray, BitVec.ushiftRight_xor_distrib]
  ac_rfl

theorem eq_zero_of_gray (x : BitVec w) (h : gray x = 0#w) : x = 0#w := by
  rw [gray, BitVec.xor_eq_zero_iff] at h
  have hn := congrArg BitVec.toNat h
  rw [BitVec.toNat_ushiftRight, Nat.shiftRight_eq_div_pow] at hn
  apply BitVec.eq_of_toNat_eq
  rw [BitVec.toNat_ofNat, Nat.zero_mod]
  omega

/-! ### Half a turn -/

/-- Adding the top bit flips it. -/
theorem add_half (L : ℕ) (x : BitVec (L + 1)) :
    x + BitVec.ofNat (L + 1) (2 ^ L) = x ^^^ BitVec.ofNat (L + 1) (2 ^ L) := by
  have hx := x.isLt
  have hp : 2 ^ (L + 1) = 2 * 2 ^ L := pow_succ' 2 L
  have hsmall : 2 ^ L % 2 ^ (L + 1) = 2 ^ L := Nat.mod_eq_of_lt (by omega)
  apply BitVec.eq_of_toNat_eq
  rw [BitVec.toNat_add, BitVec.toNat_xor, BitVec.toNat_ofNat, hsmall]
  apply Nat.eq_of_testBit_eq
  intro i
  rw [Nat.testBit_xor, Nat.testBit_two_pow, Nat.testBit_mod_two_pow]
  rcases Nat.lt_trichotomy i L with h | rfl | h
  · rw [Nat.add_comm x.toNat, Nat.testBit_two_pow_add_gt h]
    simp [show L ≠ i by omega, show i < L + 1 by omega]
  · rw [Nat.add_comm x.toNat, Nat.testBit_two_pow_add_eq]
    simp
  · have hi : x.toNat.testBit i = false := by
      apply Nat.testBit_lt_two_pow
      exact lt_of_lt_of_le hx (Nat.pow_le_pow_right (by norm_num) (by omega))
    simp [hi, show L ≠ i by omega, show ¬ i < L + 1 by omega]

/-- A code with its top two bits inverted is the code half a turn ahead. -/
theorem gray_add_half (L : ℕ) (hL : 1 ≤ L) (x : BitVec (L + 1)) :
    gray (x + BitVec.ofNat (L + 1) (2 ^ L)) =
      gray x ^^^ BitVec.ofNat (L + 1) (3 <<< (L - 1)) := by
  rw [add_half, gray_xor]
  congr 1
  obtain ⟨k, rfl⟩ : ∃ k, L = k + 1 := ⟨L - 1, by omega⟩
  apply BitVec.eq_of_toNat_eq
  have h1 : 2 ^ (k + 1) % 2 ^ (k + 1 + 1) = 2 ^ (k + 1) :=
    Nat.mod_eq_of_lt (Nat.pow_lt_pow_right (by norm_num) (by omega))
  have h2 : 3 <<< k % 2 ^ (k + 1 + 1) = 3 <<< k := by
    apply Nat.mod_eq_of_lt
    rw [Nat.shiftLeft_eq, pow_succ, pow_succ]
    have := Nat.two_pow_pos k
    omega
  rw [gray, BitVec.toNat_xor, BitVec.toNat_ushiftRight, BitVec.toNat_ofNat, BitVec.toNat_ofNat,
    h1, Nat.add_sub_cancel, h2]
  apply Nat.eq_of_testBit_eq
  intro i
  rw [Nat.testBit_xor, Nat.testBit_shiftRight, Nat.testBit_shiftLeft, Nat.testBit_two_pow,
    Nat.testBit_two_pow]
  rcases Nat.lt_trichotomy i k with h | rfl | h
  · simp [show k + 1 ≠ 1 + i by omega, show k + 1 ≠ i by omega, show ¬ k ≤ i by omega]
  · simp [show i + 1 = 1 + i by omega]
  · obtain ⟨d, rfl⟩ : ∃ d, i = k + 1 + d := ⟨i - (k + 1), by omega⟩
    have hd : k + 1 + d - k = d + 1 := by omega
    rw [hd]
    cases d with
    | zero => simp [Nat.testBit_succ]
    | succ d => simp [Nat.testBit_succ, show k + 1 ≠ 1 + (k + 1 + (d + 1)) by omega]

/-! ### One bit at a time -/

theorem xor_succ (n : ℕ) : ∃ k, n ^^^ (n + 1) = 2 ^ (k + 1) - 1 := by
  induction n using Nat.strong_induction_on with
  | _ n ih =>
    have hmod := Nat.xor_mod_two_eq (m := n) (n := n + 1)
    have hdiv := Nat.xor_div_two (a := n) (b := n + 1)
    rcases Nat.even_or_odd' n with ⟨c, hc | hc⟩
    · rw [show (n + 1) / 2 = n / 2 by omega, Nat.xor_self] at hdiv
      exact ⟨0, by omega⟩
    · obtain ⟨k, hk⟩ := ih (n / 2) (by omega)
      rw [show (n + 1) / 2 = n / 2 + 1 by omega, hk] at hdiv
      have := Nat.two_pow_pos (k + 1)
      exact ⟨k + 1, by rw [pow_succ 2 (k + 1)]; omega⟩

/-- Consecutive codes agree in all bits but one. -/
theorem gray_succ_bits (x : BitVec w) :
    ∃ k, ∀ i < w, i ≠ k → (gray x).getLsbD i = (gray (x + 1#w)).getLsbD i := by
  obtain ⟨k, hk⟩ := xor_succ x.toNat
  have hbits : ∀ i, (x ^^^ (x + 1#w)).getLsbD i = (decide (i < w) && decide (i ≤ k)) := by
    intro i
    have hlow : (x ^^^ (x + 1#w)).toNat = (2 ^ (k + 1) - 1) % 2 ^ w := by
      rw [← hk, Nat.xor_mod_two_pow, BitVec.toNat_xor, BitVec.toNat_add, BitVec.toNat_ofNat,
        Nat.add_mod_mod, Nat.mod_eq_of_lt (a := x.toNat) x.isLt]
    rw [← BitVec.testBit_toNat, hlow, Nat.testBit_mod_two_pow, Nat.testBit_two_pow_sub_one]
    simp
  refine ⟨min k (w - 1), fun i hi hne => ?_⟩
  have hdiff : (gray (x ^^^ (x + 1#w))).getLsbD i = false := by
    have hnext : (decide (1 + i < w) && decide (1 + i ≤ k)) = (decide (i < w) && decide (i ≤ k)) := by
      rw [Bool.eq_iff_iff]
      simp only [Bool.and_eq_true, decide_eq_true_iff]
      omega
    rw [gray, BitVec.getLsbD_xor, BitVec.getLsbD_ushiftRight, hbits, hbits, hnext, Bool.xor_self]
  rw [gray_xor, BitVec.getLsbD_xor] at hdiff
  simpa using hdiff

/-! ### Sampling across clocks -/

/-- A word sampled while it changes from `old` to `new`: bit by bit, `sel` says
which of the two is seen. -/
def resolve (old new sel : BitVec w) : BitVec w := (old &&& ~~~sel) ||| (new &&& sel)

@[simp] theorem resolve_self (x sel : BitVec w) : resolve x x sel = x := by
  apply BitVec.eq_of_getLsbD_eq
  intro i hi
  rw [resolve, BitVec.getLsbD_or, BitVec.getLsbD_and, BitVec.getLsbD_and, BitVec.getLsbD_not]
  cases x.getLsbD i <;> cases sel.getLsbD i <;> simp [hi]

/-- A Gray-coded counter sampled while it steps reads as its old or its new value. -/
theorem resolve_gray (x sel : BitVec w) :
    resolve (gray x) (gray (x + 1#w)) sel = gray x ∨
      resolve (gray x) (gray (x + 1#w)) sel = gray (x + 1#w) := by
  obtain ⟨k, hk⟩ := gray_succ_bits x
  have hbit : ∀ i < w, (resolve (gray x) (gray (x + 1#w)) sel).getLsbD i =
      if sel.getLsbD i then (gray (x + 1#w)).getLsbD i else (gray x).getLsbD i := by
    intro i hi
    rw [resolve, BitVec.getLsbD_or, BitVec.getLsbD_and, BitVec.getLsbD_and, BitVec.getLsbD_not]
    cases sel.getLsbD i <;> simp [hi]
  cases hsel : sel.getLsbD k with
  | true =>
    right
    apply BitVec.eq_of_getLsbD_eq
    intro i hi
    rw [hbit i hi]
    by_cases hik : i = k
    · rw [hik, hsel, if_pos rfl]
    · rw [hk i hi hik, ite_self]
  | false =>
    left
    apply BitVec.eq_of_getLsbD_eq
    intro i hi
    rw [hbit i hi]
    by_cases hik : i = k
    · rw [hik, hsel, if_neg (by simp)]
    · rw [hk i hi hik, ite_self]

end FpgaScope
