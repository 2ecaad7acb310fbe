import Mathlib.Algebra.BigOperators.Group.Finset.Basic
import Mathlib.Algebra.BigOperators.Ring.Finset
import Mathlib.Data.BitVec
import Mathlib.Data.ZMod.Basic
import Mathlib.Logic.Function.Iterate
import Mathlib.Tactic

/-! The register of a cyclic redundancy check: a shift with the generator `g` fed back from
the top bit. It is linear in exclusive or. A generator with a constant term makes the shift
injective, so no later data hides a difference; one with an even number of terms makes it
keep the parity of the register. -/

namespace FpgaScope.Crc

open Finset

variable {w : ℕ} (g : BitVec w)

/-- Multiplication by `x` modulo `x^w + g`. -/
def shift (c : BitVec w) : BitVec w := if c.msb then (c <<< 1) ^^^ g else c <<< 1

theorem shift_eq (c : BitVec w) : shift g c = (c <<< 1) ^^^ (if c.msb then g else 0) := by
  unfold shift
  split
  · rfl
  · exact (BitVec.xor_zero).symm

theorem shift_xor (c d : BitVec w) : shift g (c ^^^ d) = shift g c ^^^ shift g d := by
  have hfeed : (if (c.msb ^^ d.msb) = true then g else 0) =
      (if c.msb = true then g else 0) ^^^ (if d.msb = true then g else 0) := by
    cases c.msb <;> cases d.msb <;> simp
  rw [shift_eq, shift_eq, shift_eq, BitVec.msb_xor, BitVec.shiftLeft_xor_distrib, hfeed]
  ac_rfl

theorem iterate_xor (n : ℕ) (c d : BitVec w) :
    (shift g)^[n] (c ^^^ d) = (shift g)^[n] c ^^^ (shift g)^[n] d := by
  induction n with
  | zero => rfl
  | succ n ih =>
    rw [Function.iterate_succ_apply', Function.iterate_succ_apply', Function.iterate_succ_apply', ih,
      shift_xor]

theorem iterate_zero (n : ℕ) : (shift g)^[n] 0 = 0 := by
  have h := iterate_xor g n 0 0
  rw [BitVec.xor_self, BitVec.xor_self] at h
  exact h

/-! ### Going back -/

/-- The shift undone. -/
def unshift (c : BitVec w) : BitVec w :=
  if c.getLsbD 0 then ((c ^^^ g) >>> 1) ||| BitVec.twoPow w (w - 1) else c >>> 1

variable {g}

theorem unshift_shift (hg : g.getLsbD 0 = true) (c : BitVec w) : unshift g (shift g c) = c := by
  have hw : 0 < w := by
    by_contra h
    rw [BitVec.getLsbD_of_ge _ _ (by omega)] at hg
    cases hg
  have htop : c.getLsbD (w - 1) = c.msb := (BitVec.msb_eq_getLsbD_last c).symm
  have hlow : (c <<< 1).getLsbD 0 = false := by simp
  -- below the top the shifts cancel
  have hbelow : ∀ i < w - 1, ((c <<< 1) >>> 1).getLsbD i = c.getLsbD i := by
    intro i hi
    rw [BitVec.getLsbD_ushiftRight, BitVec.getLsbD_shiftLeft]
    simp [show 1 + i < w by omega]
  have hlast : ((c <<< 1) >>> 1).getLsbD (w - 1) = false := by
    rw [BitVec.getLsbD_ushiftRight, BitVec.getLsbD_of_ge _ _ (by omega)]
  apply BitVec.eq_of_getLsbD_eq
  intro i hi
  unfold unshift shift
  cases hm : c.msb with
  | true =>
    rw [if_pos rfl, if_pos (by rw [BitVec.getLsbD_xor, hlow, hg]; rfl), BitVec.xor_assoc, BitVec.xor_self,
      BitVec.xor_zero, BitVec.getLsbD_or, BitVec.getLsbD_twoPow]
    by_cases hlt : i < w - 1
    · rw [hbelow i hlt, decide_eq_false (by omega : ¬ w - 1 = i), Bool.and_false, Bool.or_false]
    · rw [show i = w - 1 by omega, hlast, htop, hm]
      simp [hw]
  | false =>
    simp only [Bool.false_eq_true, ↓reduceIte, hlow]
    by_cases hlt : i < w - 1
    · exact hbelow i hlt
    · rw [show i = w - 1 by omega, hlast, htop, hm]

theorem iterate_unshift (hg : g.getLsbD 0 = true) (n : ℕ) (c : BitVec w) :
    (unshift g)^[n] ((shift g)^[n] c) = c := Function.LeftInverse.iterate (unshift_shift hg) n c

theorem iterate_eq_zero (hg : g.getLsbD 0 = true) {n : ℕ} {c : BitVec w} (h : (shift g)^[n] c = 0) : c = 0 := by
  have hz := iterate_unshift hg n (0 : BitVec w)
  rw [iterate_zero] at hz
  rw [← iterate_unshift hg n c, h, hz]

/-! ### Parity -/

/-- The number of ones, modulo two. -/
def parity {v : ℕ} (c : BitVec v) : ZMod 2 := ∑ i ∈ range v, if c.getLsbD i then 1 else 0

theorem parity_xor {v : ℕ} (c d : BitVec v) : parity (c ^^^ d) = parity c + parity d := by
  unfold parity
  rw [← sum_add_distrib]
  refine sum_congr rfl fun i _ => ?_
  rw [BitVec.getLsbD_xor]
  cases c.getLsbD i <;> cases d.getLsbD i <;> decide

theorem parity_shiftLeft (c : BitVec w) : parity (c <<< 1) + (if c.msb then 1 else 0) = parity c := by
  cases w with
  | zero => simp [parity, BitVec.eq_nil c]
  | succ v =>
    have hlow : (c <<< 1).getLsbD 0 = false := by simp
    have hup : ∀ i ∈ range v, (if (c <<< 1).getLsbD (i + 1) then 1 else 0 : ZMod 2) =
        if c.getLsbD i then 1 else 0 := by
      intro i hi
      rw [BitVec.getLsbD_shiftLeft]
      simp [mem_range.mp hi]
    rw [parity, parity, sum_range_succ', sum_range_succ, hlow, sum_congr rfl hup,
      BitVec.msb_eq_getLsbD_last]
    simp

theorem parity_shift (hg : parity g = 1) (c : BitVec w) : parity (shift g c) = parity c := by
  rw [shift_eq, parity_xor, ← parity_shiftLeft c]
  cases c.msb with
  | true => rw [if_pos rfl, if_pos rfl, hg]
  | false => simp [parity]

theorem parity_iterate (hg : parity g = 1) (n : ℕ) (c : BitVec w) : parity ((shift g)^[n] c) = parity c := by
  induction n with
  | zero => rfl
  | succ n ih => rw [Function.iterate_succ_apply', parity_shift hg, ih]

/-! ### Data -/

section
variable (g) (k : ℕ)

/-- The register after some data words, each added and then shifted through in `k` steps. -/
def feed (c : BitVec w) (xs : List (BitVec w)) : BitVec w := xs.foldl (fun c x => (shift g)^[k] (c ^^^ x)) c

/-- Errors in the data act as if fed on their own. -/
theorem feed_xor (c d : BitVec w) {xs es : List (BitVec w)} (h : xs.length = es.length) :
    feed g k (c ^^^ d) (List.zipWith (· ^^^ ·) xs es) = feed g k c xs ^^^ feed g k d es := by
  induction xs generalizing c d es with
  | nil =>
    obtain rfl := List.length_eq_zero_iff.mp h.symm
    rfl
  | cons x xs ih =>
    cases es with
    | nil => cases h
    | cons e es =>
      have hstep : (shift g)^[k] (c ^^^ d ^^^ (x ^^^ e)) =
          (shift g)^[k] (c ^^^ x) ^^^ (shift g)^[k] (d ^^^ e) := by
        rw [← iterate_xor]
        congr 1
        ac_rfl
      have hlen : xs.length = es.length := by simpa using h
      change feed g k ((shift g)^[k] (c ^^^ d ^^^ (x ^^^ e))) (List.zipWith (· ^^^ ·) xs es) = _
      rw [hstep, ih _ _ hlen]
      rfl

theorem feed_zeros (c : BitVec w) (n : ℕ) : feed g k c (List.replicate n 0) = (shift g)^[n * k] c := by
  induction n generalizing c with
  | zero => rw [Nat.zero_mul]; rfl
  | succ n ih =>
    change feed g k ((shift g)^[k] (c ^^^ 0)) (List.replicate n 0) = _
    rw [ih, show c ^^^ 0 = c from BitVec.xor_zero, Nat.succ_mul, Function.iterate_add_apply]

end

/-- The parity of the register counts the ones of the data. -/
theorem parity_feed (hg : parity g = 1) (k : ℕ) (c : BitVec w) (xs : List (BitVec w)) :
    parity (feed g k c xs) = parity c + (xs.map parity).sum := by
  induction xs generalizing c with
  | nil => simp [feed]
  | cons x xs ih =>
    change parity (feed g k ((shift g)^[k] (c ^^^ x)) xs) = _
    rw [ih, parity_iterate hg, parity_xor, List.map_cons, List.sum_cons, add_assoc]

end FpgaScope.Crc
