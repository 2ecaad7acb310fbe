import Mathlib.Data.List.Basic
import Mathlib.Tactic

/-! Bijective base-`b` numerals, least significant digit first: `n > 0` is `d + 1 + b * m` for one
digit `d < b`, so that every list of digits is the numeral of one number and no two numbers share
one. -/

namespace FpgaScope.Bijective

variable {b : ℕ}

def digits (b : ℕ) : ℕ → List ℕ
  | 0 => []
  | n + 1 => n % b :: digits b (n / b)
decreasing_by exact Nat.lt_succ_of_le (Nat.div_le_self n b)

/-- The number of a numeral. -/
def value (b : ℕ) : List ℕ → ℕ
  | [] => 0
  | d :: ds => b * value b ds + d + 1

theorem digits_zero : digits b 0 = [] := by
  unfold digits
  rfl

theorem digits_succ (n : ℕ) : digits b (n + 1) = n % b :: digits b (n / b) := by
  rw [digits]

theorem digits_lt (hb : 0 < b) (n : ℕ) : ∀ d ∈ digits b n, d < b := by
  induction n using Nat.strong_induction_on with
  | _ n ih =>
    cases n with
    | zero =>
      intro d hd
      rw [digits_zero] at hd
      cases hd
    | succ n =>
      intro d hd
      rw [digits_succ, List.mem_cons] at hd
      rcases hd with rfl | hd
      · exact Nat.mod_lt n hb
      · exact ih (n / b) (Nat.lt_succ_of_le (Nat.div_le_self n b)) d hd

theorem value_digits (n : ℕ) : value b (digits b n) = n := by
  induction n using Nat.strong_induction_on with
  | _ n ih =>
    cases n with
    | zero => rw [digits_zero, value]
    | succ n =>
      rw [digits_succ, value, ih (n / b) (Nat.lt_succ_of_le (Nat.div_le_self n b)), Nat.div_add_mod]

theorem digits_injective (b : ℕ) : Function.Injective (digits b) :=
  Function.LeftInverse.injective (g := value b) value_digits

end FpgaScope.Bijective
