import Mathlib.Data.Int.Bitwise
import Mathlib.Data.List.Basic
import Mathlib.Data.List.Sort
import Mathlib.Tactic

/-! `probes.json` of the host package: named groups of probe bits, and `load_probes`, which adds a
signal for every bit that no group covers. Python integers are `ℤ`; samples may be any. -/

namespace FpgaScope.Host

structure Signal where
  name : String
  msb : ℤ
  lsb : ℤ
  deriving DecidableEq

namespace Signal

variable (s : Signal)

def width : ℤ := s.msb - s.lsb + 1

/-- `extract`; Python refuses a negative shift. With the mask the result is not negative. -/
def extract (sample : ℤ) : Option ℕ :=
  if s.lsb < 0 ∨ s.width < 0 then none
  else some (Int.land (sample >>> s.lsb.toNat) ((1 <<< s.width.toNat) - 1 : ℕ)).toNat

/-- Bit `k` of the probe lies in the signal. -/
def Covers (k : ℤ) : Prop := s.lsb ≤ k ∧ k ≤ s.msb

instance (k : ℤ) : Decidable (s.Covers k) := inferInstanceAs (Decidable (_ ∧ _))

end Signal

/-- The object of `probes.json`, in its order: name, msb, lsb. -/
abbrev Mapping := List (String × ℤ × ℤ)

/-- The named groups, with `msb` and `lsb` in order. -/
def groups (mapping : Mapping) : List Signal :=
  mapping.map fun (name, msb, lsb) => if lsb > msb then ⟨name, lsb, msb⟩ else ⟨name, msb, lsb⟩

/-- The signal of a bit without a group. -/
def unmapped (k : ℕ) : Signal := ⟨"probe[" ++ toString k ++ "]", k, k⟩

def loadProbes (mapping : Mapping) (probeW : ℤ) : List Signal :=
  let sigs := groups mapping
  let rest := (List.range probeW.toNat).filter fun k : ℕ => ¬ ∃ s ∈ sigs, s.Covers k
  (sigs ++ rest.map unmapped).insertionSort fun a b => a.lsb ≤ b.lsb

/-! ### Signals -/

section Extract

variable {s : Signal} {sample : ℤ}

theorem land_nonneg (x : ℤ) (m : ℕ) : 0 ≤ Int.land x m := by
  cases x with
  | ofNat n => exact Int.natCast_nonneg _
  | negSucc n => exact Int.natCast_nonneg _

theorem testBit_shiftRight (x : ℤ) (n i : ℕ) : (x >>> n).testBit i = x.testBit (n + i) := by
  cases x with
  | ofNat m => exact Nat.testBit_shiftRight ..
  | negSucc m =>
    rw [Int.negSucc_shiftRight]
    exact congrArg (!·) (Nat.testBit_shiftRight ..)

theorem extract_defined (hlsb : 0 ≤ s.lsb) (hle : s.lsb ≤ s.msb) : ∃ v, s.extract sample = some v := by
  rw [Signal.extract, if_neg (by unfold Signal.width; omega)]
  exact ⟨_, rfl⟩

/-- Bit `i` of the value is bit `lsb + i` of the sample, up to the width. -/
theorem extract_testBit {v : ℕ} (h : s.extract sample = some v) (i : ℕ) :
    v.testBit i = (sample.testBit (s.lsb.toNat + i) && decide (i < s.width.toNat)) := by
  rw [Signal.extract] at h
  split at h
  · cases h
  · have hv : (v : ℤ) = Int.land (sample >>> s.lsb.toNat) ((1 <<< s.width.toNat) - 1 : ℕ) := by
      rw [← Option.some.inj h, Int.toNat_of_nonneg (land_nonneg _ _)]
    have hmask : Int.testBit ((1 <<< s.width.toNat) - 1 : ℕ) i = decide (i < s.width.toNat) := by
      rw [Nat.one_shiftLeft]
      exact Nat.testBit_two_pow_sub_one _ i
    have hbit := congrArg (fun x => Int.testBit x i) hv
    rw [Int.testBit_land, testBit_shiftRight, hmask] at hbit
    exact hbit

/-- The value of a one-bit signal is a bit. -/
theorem extract_lt_two {v : ℕ} (h : s.extract sample = some v) (hw : s.width = 1) : v < 2 ^ 1 := by
  apply Nat.lt_pow_two_of_testBit
  intro i hi
  rw [extract_testBit h, hw, decide_eq_false (by change ¬ i < 1; omega), Bool.and_false]

end Extract

/-! ### The loaded list -/

section Loaded

variable {mapping : Mapping} {probeW : ℤ} {s : Signal}

theorem mem_loadProbes : s ∈ loadProbes mapping probeW ↔ s ∈ groups mapping ∨
    ∃ k : ℕ, (k : ℤ) < probeW ∧ (¬ ∃ s ∈ groups mapping, s.Covers k) ∧ unmapped k = s := by
  simp only [loadProbes, List.mem_insertionSort, List.mem_append, List.mem_map, List.mem_filter,
    List.mem_range, decide_eq_true_eq, and_assoc, Int.lt_toNat]

theorem groups_ordered (h : s ∈ groups mapping) : s.lsb ≤ s.msb := by
  obtain ⟨⟨name, msb, lsb⟩, -, rfl⟩ := List.mem_map.mp h
  dsimp only
  split
  · rename_i hlt
    exact hlt.le
  · rename_i hle
    exact not_lt.mp hle

theorem loadProbes_ordered (h : s ∈ loadProbes mapping probeW) : s.lsb ≤ s.msb := by
  rcases mem_loadProbes.mp h with h | ⟨k, -, -, rfl⟩
  · exact groups_ordered h
  · exact le_rfl

/-- Every probe bit lies in some signal. -/
theorem loadProbes_covers {k : ℕ} (hk : (k : ℤ) < probeW) :
    ∃ s ∈ loadProbes mapping probeW, s.Covers k := by
  by_cases h : ∃ s ∈ groups mapping, s.Covers k
  · obtain ⟨s, hs, hcov⟩ := h
    exact ⟨s, mem_loadProbes.mpr (Or.inl hs), hcov⟩
  · exact ⟨unmapped k, mem_loadProbes.mpr (Or.inr ⟨k, hk, h, rfl⟩), le_rfl, le_rfl⟩

end Loaded

end FpgaScope.Host
