import FpgaScope.Rtl.Core
import Mathlib.Data.Nat.Log

/-! Slice geometry of `scope_core`: how the latched window count fixes the slice
size, and what the address registers of a window mean as natural numbers. -/

namespace FpgaScope.Core

variable {W L T : ℕ}

theorem toNat_one (hL : 1 ≤ L) : (1 : BitVec L).toNat = 1 := by
  have : 2 ^ 1 ≤ 2 ^ L := Nat.pow_le_pow_right (by norm_num) hL
  change 1 % 2 ^ L = 1
  exact Nat.mod_eq_of_lt (by omega)

/-- Buffer depth. -/
def depth (L : ℕ) : ℕ := 2 ^ L

/-- `W_eff`: the window count rounded up to a power of two, at most `DEPTH/2`. -/
def weff (L : ℕ) (windows : BitVec 8) : ℕ := min (2 ^ Nat.clog 2 windows.toNat) (depth L / 2)

/-- `SLICE = DEPTH / W_eff`. -/
def sliceSize (L : ℕ) (windows : BitVec 8) : ℕ := depth L / weff L windows

/-- The loop of `weff_log2_of`, before the clamp. -/
theorem weff_loop (w : BitVec 8) :
    ((List.range 8).foldl (fun acc i => if w.toNat > 2 ^ i then BitVec.ofNat 4 (i + 1) else acc)
      0#4).toNat = Nat.clog 2 w.toNat := by
  have key : ∀ w : BitVec 8, ∀ r, r = ((List.range 8).foldl
      (fun acc i => if w.toNat > 2 ^ i then BitVec.ofNat 4 (i + 1) else acc) 0#4).toNat →
      w.toNat ≤ 2 ^ r ∧ (r = 0 ∨ 2 ^ (r - 1) < w.toNat) := by
    rintro w r rfl
    revert w
    decide
  obtain ⟨hle, hlt⟩ := key w _ rfl
  apply le_antisymm
  · rcases hlt with h0 | hlt
    · rw [h0]; exact Nat.zero_le _
    · have := (Nat.lt_clog_iff_pow_lt (b := 2) (by norm_num)).mpr hlt
      omega
  · exact Nat.clog_le_of_le_pow hle

/-- The latched shift is the exponent of `W_eff`, clamped to `DEPTH_LOG2 - 1`. -/
theorem weffLog2Of_toNat (hL : 1 ≤ L) (hL' : L ≤ 16) (w : BitVec 8) :
    (weffLog2Of L w).toNat = min (Nat.clog 2 w.toNat) (L - 1) := by
  have hclamp : (BitVec.ofNat 4 (L - 1)).toNat = L - 1 := by
    rw [BitVec.toNat_ofNat, Nat.mod_eq_of_lt (by omega)]
  simp only [weffLog2Of, gt_iff_lt, BitVec.lt_def, hclamp, weff_loop]
  split
  · rw [hclamp]; omega
  · rw [weff_loop]; omega

theorem weffLog2Of_lt (hL : 1 ≤ L) (hL' : L ≤ 16) (w : BitVec 8) :
    (weffLog2Of L w).toNat < L := by
  rw [weffLog2Of_toNat hL hL']
  omega

theorem weff_eq (hL : 1 ≤ L) (hL' : L ≤ 16) (w : BitVec 8) :
    weff L w = 2 ^ (weffLog2Of L w).toNat := by
  have hhalf : depth L / 2 = 2 ^ (L - 1) := by
    obtain ⟨k, rfl⟩ : ∃ k, L = k + 1 := ⟨L - 1, by omega⟩
    rw [depth, pow_succ, Nat.mul_div_cancel _ (by norm_num), Nat.add_sub_cancel]
  rw [weffLog2Of_toNat hL hL', weff, hhalf]
  rcases Nat.le_total (Nat.clog 2 w.toNat) (L - 1) with h | h
  · rw [min_eq_left h, min_eq_left (Nat.pow_le_pow_right (by norm_num) h)]
  · rw [min_eq_right h, min_eq_right (Nat.pow_le_pow_right (by norm_num) h)]

/-- One window takes the whole buffer. -/
theorem weff_one (hL : 1 ≤ L) (hL' : L ≤ 16) : weff L 1 = 1 := by
  rw [weff_eq hL hL', weffLog2Of_toNat hL hL', show (1 : BitVec 8).toNat = 1 by decide, Nat.clog_one_right,
    Nat.zero_min, pow_zero]

theorem sliceSize_one (hL : 1 ≤ L) (hL' : L ≤ 16) : sliceSize L 1 = depth L := by
  rw [sliceSize, weff_one hL hL', Nat.div_one]

/-- A slice is a power of two. -/
theorem sliceSize_eq (hL : 1 ≤ L) (hL' : L ≤ 16) (w : BitVec 8) :
    sliceSize L w = 2 ^ (L - (weffLog2Of L w).toNat) := by
  have := weffLog2Of_lt hL hL' w
  rw [sliceSize, weff_eq hL hL', depth, Nat.pow_div (by omega) (by norm_num)]

theorem sliceSize_pos (hL : 1 ≤ L) (hL' : L ≤ 16) (w : BitVec 8) : 0 < sliceSize L w := by
  rw [sliceSize_eq hL hL']
  exact Nat.two_pow_pos _

/-- The slices tile the buffer. -/
theorem weff_mul_sliceSize (hL : 1 ≤ L) (hL' : L ≤ 16) (w : BitVec 8) :
    weff L w * sliceSize L w = depth L := by
  have := weffLog2Of_lt hL hL' w
  rw [weff_eq hL hL', sliceSize_eq hL hL', ← pow_add, depth]
  congr 1
  omega

theorem sliceSize_le (hL : 1 ≤ L) (hL' : L ≤ 16) (w : BitVec 8) : sliceSize L w ≤ depth L := by
  have h := weff_mul_sliceSize hL hL' w
  have hpos : 0 < weff L w := by rw [weff_eq hL hL']; exact Nat.two_pow_pos _
  calc sliceSize L w ≤ weff L w * sliceSize L w := Nat.le_mul_of_pos_left _ hpos
    _ = depth L := h

theorem sliceMaskOf_toNat (hL : 1 ≤ L) (hL' : L ≤ 16) (w : BitVec 8) :
    (sliceMaskOf L w).toNat = sliceSize L w - 1 := by
  have := weffLog2Of_lt hL hL' w
  have hshift : (2 ^ L - 1) >>> (weffLog2Of L w).toNat = 2 ^ (L - (weffLog2Of L w).toNat) - 1 := by
    apply Nat.eq_of_testBit_eq
    intro k
    rw [Nat.testBit_shiftRight, Nat.testBit_two_pow_sub_one, Nat.testBit_two_pow_sub_one]
    exact decide_eq_decide.mpr (by omega)
  have hlt : 2 ^ (L - (weffLog2Of L w).toNat) ≤ 2 ^ L :=
    Nat.pow_le_pow_right (by norm_num) (by omega)
  have := Nat.two_pow_pos L
  rw [sliceMaskOf, BitVec.toNat_ofNat, hshift, Nat.mod_eq_of_lt (by omega), sliceSize_eq hL hL']

/-- A window count the register file accepts fits into the buffer. -/
theorem window_fits {w : BitVec 8} (hw : w.toNat ≤ depth L / 2) (hL : 1 ≤ L) (hL' : L ≤ 16)
    {j : ℕ} (hj : j < w.toNat) : (j + 1) * sliceSize L w ≤ depth L := by
  rw [← weff_mul_sliceSize hL hL' w]
  apply Nat.mul_le_mul_right
  have := Nat.le_pow_clog (b := 2) (by norm_num) w.toNat
  rw [weff]
  omega

end FpgaScope.Core
