import FpgaScope.Protocol.Response

/-! The lane buffer of the frame engine. It is indexed with four bits, so with a
seventeenth lane the last reply lands in lane 0, and byte 64 is read back from there. -/

namespace FpgaScope

theorem setLane_getLsbD {w : ℕ} (x : BitVec w) (j : ℕ) (v : BitVec 32) (i : ℕ) :
    (setLane x j v).getLsbD i =
      if 32 * j ≤ i ∧ i < 32 * j + 32 then decide (i < w) && v.getLsbD (i - 32 * j)
      else x.getLsbD i := by
  by_cases hw : i < w
  · simp only [setLane, BitVec.getLsbD_or, BitVec.getLsbD_and, BitVec.getLsbD_not,
      BitVec.getLsbD_shiftLeft, BitVec.getLsbD_setWidth, hw, decide_true, Bool.true_and,
      BitVec.getLsbD_allOnes]
    by_cases h₁ : i < 32 * j
    · simp [h₁, show ¬ 32 * j ≤ i by omega]
    · by_cases h₂ : i < 32 * j + 32
      · simp [h₁, h₂, show 32 * j ≤ i by omega, show i - 32 * j < w by omega,
          show i - 32 * j < 32 by omega]
      · have hv : v.getLsbD (i - 32 * j) = false := BitVec.getLsbD_of_ge _ _ (by omega)
        simp [h₁, h₂, hv, show ¬ i - 32 * j < 32 by omega]
  · simp [BitVec.getLsbD_of_ge _ _ (Nat.le_of_not_lt hw), hw]

theorem getLane_setLane_same {w : ℕ} (x : BitVec w) {j : ℕ} (v : BitVec 32)
    (h : 32 * j + 32 ≤ w) : getLane (setLane x j v) j = v := by
  apply BitVec.eq_of_getLsbD_eq
  intro i hi
  rw [getLane, BitVec.getLsbD_extractLsb', setLane_getLsbD, if_pos (by omega),
    Nat.add_sub_cancel_left]
  simp [hi, show 32 * j + i < w by omega]

theorem getLane_setLane_other {w : ℕ} (x : BitVec w) {j k : ℕ} (v : BitVec 32) (h : k ≠ j) :
    getLane (setLane x j v) k = getLane x k := by
  apply BitVec.eq_of_getLsbD_eq
  intro i hi
  rw [getLane, getLane, BitVec.getLsbD_extractLsb', BitVec.getLsbD_extractLsb', setLane_getLsbD,
    if_neg (by omega)]

namespace Protocol

/-- A byte inside a lane. -/
theorem leByte_getLane {w : ℕ} (x : BitVec w) (j : ℕ) {k : ℕ} (hk : k < 4) :
    leByte (getLane x j) k = x.extractLsb' (32 * j + 8 * k) 8 := by
  apply BitVec.eq_of_getLsbD_eq
  intro i hi
  simp only [leByte, getLane, BitVec.getLsbD_extractLsb', hi, decide_true, Bool.true_and]
  rw [show 32 * j + 8 * k + i = 32 * j + (8 * k + i) by omega]
  simp [show 8 * k + i < 32 by omega]

/-- A word is its four bytes. -/
theorem eq_of_leByte {x y : BitVec 32} (h : ∀ k < 4, leByte x k = leByte y k) : x = y := by
  apply BitVec.eq_of_getLsbD_eq
  intro i hi
  have hb := congrArg (fun b => BitVec.getLsbD b (i % 8)) (h (i / 8) (by omega))
  simp only [leByte, BitVec.getLsbD_extractLsb', show i % 8 < 8 by omega, decide_true,
    Bool.true_and] at hb
  rwa [show 8 * (i / 8) + i % 8 = i by omega] at hb

/-- The last of the first `l` lanes that is written to slot `k`. -/
def writer (l k : ℕ) : ℕ := if k + 16 < l then k + 16 else k

/-- The bytes of a stored word as the frame engine sends them. -/
def laneBytes (p : Params) (lane : ℕ → BitVec 32) : List Byte :=
  (List.range p.nb).map fun b => leByte (lane (writer p.bufLanes (b % 64 / 4))) (b % 4)

theorem laneBytes_length (p : Params) (lane : ℕ → BitVec 32) : (laneBytes p lane).length = p.nb := by
  rw [laneBytes, List.length_map, List.length_range]

theorem wordBytes_length (p : Params) (lane : ℕ → BitVec 32) : (wordBytes p lane).length = p.nb := by
  rw [wordBytes, List.length_map, List.length_range]

/-- The word arrives intact: there is no seventeenth lane, or it equals the first. -/
def Intact (p : Params) (lane : ℕ → BitVec 32) : Prop := p.storeW ≤ 512 ∨ lane 0 = lane 16

/-- The engine packs a word as documented exactly when it arrives intact. -/
theorem laneBytes_eq_iff (p : Params) (lane : ℕ → BitVec 32) :
    laneBytes p lane = wordBytes p lane ↔ Intact p lane := by
  have hle := p.storeW_le
  have hbytes : laneBytes p lane = wordBytes p lane ↔ ∀ b < p.nb,
      leByte (lane (writer p.bufLanes (b % 64 / 4))) (b % 4) = leByte (lane (b / 4)) (b % 4) := by
    rw [laneBytes, wordBytes, List.map_inj_left]
    simp only [List.mem_range]
  rw [hbytes, Intact]
  constructor
  · intro h
    rcases Nat.lt_or_ge 512 p.storeW with hw | hw
    · refine Or.inr (eq_of_leByte fun k hk => ?_)
      have hl : p.bufLanes = 17 := by
        unfold Params.bufLanes
        omega
      have hb := h k (by unfold Params.nb; omega)
      rw [hl, writer, if_pos (by omega), show k % 64 / 4 + 16 = 16 by omega,
        show k / 4 = 0 by omega, show k % 4 = k by omega] at hb
      exact hb.symm
    · exact Or.inl hw
  · intro h b hb
    unfold Params.nb at hb
    unfold writer Params.bufLanes
    split
    · have h0 : lane 0 = lane 16 := by
        rcases h with h | h
        · omega
        · exact h
      rcases Nat.lt_or_ge b 64 with hb' | hb'
      · rw [show b % 64 / 4 + 16 = 16 by omega, show b / 4 = 0 by omega, h0]
      · rw [show b % 64 / 4 + 16 = 16 by omega, show b / 4 = 16 by omega]
    · rw [show b % 64 / 4 = b / 4 by omega]

end Protocol

end FpgaScope
