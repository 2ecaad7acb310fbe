import FpgaScope.Core.Window
import FpgaScope.Host.Reorder

/-! The window in flight. `Phase` says, for every cycle of a run, which window the
FSM is in: how many samples it has stored since its first `FILLING` cycle `f`,
and once triggered in which cycle `u` the trigger was accepted. The post counter
and the stored count always add up to one slice past the pretrigger history, so
a completed window holds exactly one slice around its trigger. -/

namespace FpgaScope.Core

open Clocked

variable {W L T : ℕ}

/-- `PRETRIG_EFF = PRETRIG >> log2(W_eff)`. -/
def pretrigOf (L : ℕ) (pretrig : BitVec L) (windows : BitVec 8) : ℕ :=
  pretrig.toNat >>> Nat.log2 (weff L windows)

section Arithmetic
variable (hL : 1 ≤ L) (hL' : L ≤ 16)
include hL hL'

theorem pretrigEff_toNat {c : Core W L T} (h : Shape c) (i : CoreIn W L) :
    (pretrigEff c i).toNat = pretrigOf L i.pretrig c.windowsQ := by
  rw [pretrigEff, pretrigOf, weff_eq hL hL', Nat.log2_two_pow, h.weff]
  exact BitVec.toNat_ushiftRight _ _

theorem pretrigOf_one (pretrig : BitVec L) : pretrigOf L pretrig 1 = pretrig.toNat := by
  rw [pretrigOf, weff_one hL hL', show Nat.log2 1 = 0 by decide, Nat.shiftRight_zero]

theorem pretrigOf_lt (pretrig : BitVec L) (windows : BitVec 8) :
    pretrigOf L pretrig windows < sliceSize L windows := by
  have hlt := weffLog2Of_lt hL hL' windows
  rw [pretrigOf, weff_eq hL hL', Nat.log2_two_pow, sliceSize_eq hL hL',
    Nat.shiftRight_eq_div_pow, Nat.div_lt_iff_lt_mul (Nat.two_pow_pos _), ← pow_add,
    Nat.sub_add_cancel hlt.le]
  exact pretrig.isLt

omit hL' in
theorem fillNext_toNat (c : Core W L T) (i : CoreIn W L) :
    (fillNext c i).toNat = c.fillCnt.toNat + (fillWr c i).toNat := by
  have h := c.fillCnt.isLt
  have h2 : 2 ≤ 2 ^ L := by simpa using Nat.pow_le_pow_right (n := 2) (by norm_num) hL
  have hb : (fillWr c i).toNat ≤ 1 := Bool.toNat_le _
  rw [fillNext, BitVec.toNat_add, BitVec.toNat_setWidth, BitVec.toNat_setWidth,
    BitVec.toNat_ofBool, pow_succ, Nat.mod_eq_of_lt (a := c.fillCnt.toNat) (by omega),
    Nat.mod_eq_of_lt (a := (fillWr c i).toNat) (by omega), Nat.mod_eq_of_lt (by omega)]

omit hL' in
/-- The post counter never underflows: it counts down only while positive. -/
theorem postNext_toNat (c : Core W L T) (i : CoreIn W L) :
    (postNext c i).toNat + (postWr c i).toNat = c.postRemaining.toNat := by
  have hlt := c.postRemaining.isLt
  by_cases h : postWr c i = true
  · have hne : c.postRemaining ≠ 0 := by
      simp only [postWr, captureWr, Bool.and_eq_true, beq_iff_eq] at h
      obtain ⟨⟨-, hc⟩, hs⟩ := h
      rw [hs] at hc
      simpa using hc
    have hpos : 0 < c.postRemaining.toNat := Nat.pos_of_ne_zero fun h0 =>
      hne (BitVec.eq_of_toNat_eq h0)
    have h1 : ((BitVec.ofBool true).setWidth (L + 1)).toNat = 1 := by
      have h2 : 2 ≤ 2 ^ L := by simpa using Nat.pow_le_pow_right (n := 2) (by norm_num) hL
      rw [BitVec.toNat_setWidth, BitVec.toNat_ofBool, Bool.toNat_true, pow_succ]
      exact Nat.mod_eq_of_lt (by omega)
    rw [postNext, h, BitVec.toNat_sub_of_le (BitVec.le_def.mpr (by omega)), h1, Bool.toNat_true]
    omega
  · have h' : postWr c i = false := by simpa using h
    simp [postNext, h']

/-- The budget latched at the trigger: one slice less the history and the trigger
sample itself. -/
theorem budget_toNat {c : Core W L T} (h : Shape c) (i : CoreIn W L) :
    (c.sliceMask.setWidth (L + 1) - (pretrigEff c i).setWidth (L + 1)).toNat =
      sliceSize L c.windowsQ - 1 - pretrigOf L i.pretrig c.windowsQ := by
  have hlt := pretrigOf_lt hL hL' i.pretrig c.windowsQ
  have hm := c.sliceMask.isLt
  have hp := (pretrigEff c i).isLt
  have h1 : (c.sliceMask.setWidth (L + 1)).toNat = sliceSize L c.windowsQ - 1 := by
    rw [BitVec.toNat_setWidth, pow_succ, Nat.mod_eq_of_lt (by omega), h.mask]
  have h2 : ((pretrigEff c i).setWidth (L + 1)).toNat = pretrigOf L i.pretrig c.windowsQ := by
    rw [BitVec.toNat_setWidth, pow_succ, Nat.mod_eq_of_lt (by omega), pretrigEff_toNat hL hL' h]
  rw [BitVec.toNat_sub_of_le (BitVec.le_def.mpr (by omega)), h1, h2]

end Arithmetic

/-- `pretrig` is held while the FSM is out of `IDLE`, as the register file's
configuration lock guarantees. -/
def PretrigHeld (c₀ : Core W L T) (inp : ℕ → CoreIn W L) : Prop :=
  ∀ n, (run c₀ inp n).st ≠ .idle → (run c₀ inp (n + 1)).st ≠ .idle →
    (inp (n + 1)).pretrig = (inp n).pretrig

section
variable (c₀ : Core W L T) (inp : ℕ → CoreIn W L)

/-- The effective pretrigger count in cycle `n`. -/
def preAt (n : ℕ) : ℕ := pretrigOf L (inp n).pretrig (run c₀ inp n).windowsQ

/-- Slice size in force in cycle `n`. -/
def sizeAt (n : ℕ) : ℕ := sliceSize L (run c₀ inp n).windowsQ

/-- A window that began in cycle `f` and has stored every valid sample since. -/
structure InWindow (n f : ℕ) : Prop where
  begins : ∃ g, f = g + 1 ∧ ((run c₀ inp g).st = .idle ∨ (run c₀ inp g).st = .done)
  slice : SliceInv inp (run c₀ inp n) n f (stored inp f n)

/-- The window in flight in cycle `n`. -/
inductive Phase (n : ℕ) : Prop
  | quiet (hs : (run c₀ inp n).st = .idle ∨ (run c₀ inp n).st = .done)
  | filling (f : ℕ) (hw : InWindow c₀ inp n f)
      (hs : ∀ v, f ≤ v → v ≤ n → (run c₀ inp v).st = .filling)
      (hcnt : (run c₀ inp n).fillCnt.toNat = stored inp f n)
      (hpre : stored inp f n = 0 ∨ stored inp f n < preAt c₀ inp n)
  | armed (f : ℕ) (hw : InWindow c₀ inp n f) (hs : (run c₀ inp n).st = .armed)
      (hb : ∀ v, f ≤ v → v ≤ n → (run c₀ inp v).st = .filling ∨ (run c₀ inp v).st = .armed)
      (hpre : preAt c₀ inp n ≤ stored inp f n)
  | triggered (f u : ℕ) (hw : InWindow c₀ inp n f) (hu : u < n)
      (hacc : trigAccept (run c₀ inp u) (inp u) = true)
      (hb : ∀ v, f ≤ v → v ≤ u → (run c₀ inp v).st = .filling ∨ (run c₀ inp v).st = .armed)
      (ha : ∀ v, u < v → v ≤ n → (run c₀ inp v).st = .triggered)
      (hf : f ≤ u) (hpre : preAt c₀ inp n ≤ stored inp f u)
      (hidx : (run c₀ inp n).trigIndex.toNat =
        (run c₀ inp n).base.toNat + stored inp f u % sizeAt c₀ inp n)
      (hpost : (run c₀ inp n).postRemaining.toNat + stored inp f n + preAt c₀ inp n =
        stored inp f u + sizeAt c₀ inp n)

end

theorem shape_run (hL : 1 ≤ L) (hL' : L ≤ 16) (c₀ : Core W L T) (inp : ℕ → CoreIn W L) (n : ℕ) :
    Shape (run c₀ inp n) :=
  trace_invariant _ _ _ _ (Shape.reset hL hL' c₀) (fun _ i h => h.step hL hL' i) n

/-- The first cycle of a window. -/
theorem SliceInv.begin (hL : 1 ≤ L) (hL' : L ≤ 16) (inp : ℕ → CoreIn W L) {c : Core W L T}
    (n : ℕ) (ho : c.offset = 0) (hw : c.wrapped = false) : SliceInv inp c n n (stored inp n n) := by
  have hpos := sliceSize_pos hL hL' c.windowsQ
  rw [stored_self]
  refine ⟨le_rfl, ?_, ?_, ?_⟩
  · simp [ho]
  · rw [hw, eq_comm, decide_eq_false_iff_not]
    omega
  · rw [Nat.zero_sub]
    exact Ring.Holds.empty _ _ _ 0

/-- A cycle in which every valid sample is stored. -/
theorem SliceInv.advance (hL : 1 ≤ L) (hL' : L ≤ 16) {inp : ℕ → CoreIn W L} {c : Core W L T}
    {n f : ℕ} (h : SliceInv inp c n f (stored inp f n)) (hsh : Shape c)
    (hw : captureWr c (inp n) = (inp n).sampleValid) :
    SliceInv inp (datapath c (inp n)) (n + 1) f (stored inp f (n + 1)) := by
  cases hv : (inp n).sampleValid with
  | true => exact h.store hL hL' hsh (hw.trans hv)
  | false =>
    rw [stored_gap hv]
    exact h.hold hL hL' (hw.trans hv)

/-- Registers outside the slice invariant do not matter to it. -/
theorem SliceInv.congr {inp : ℕ → CoreIn W L} {c c' : Core W L T} {n f m : ℕ}
    (h : SliceInv inp c n f m) (ho : c'.offset = c.offset) (hw : c'.wrapped = c.wrapped)
    (hb : c'.base = c.base) (hq : c'.windowsQ = c.windowsQ) (hm : c'.uBuf = c.uBuf) :
    SliceInv inp c' n f m := by
  have hbuf : ∀ a, bufAt c' a = bufAt c a := fun a => by rw [bufAt, hm, bufAt]
  exact ⟨h.f_le, by rw [ho, hq, h.offset], by rw [hw, hq, h.wrapped],
    by simpa only [hb, hq, hbuf] using h.holds⟩

theorem extend_range {P : ℕ → Prop} {f n : ℕ} (h : ∀ v, f ≤ v → v ≤ n → P v) (hn : P (n + 1)) :
    ∀ v, f ≤ v → v ≤ n + 1 → P v := by
  intro v h₁ h₂
  rcases Nat.lt_or_ge n v with hlt | hle
  · rw [show v = n + 1 by omega]; exact hn
  · exact h v h₁ hle

section Step
variable {c₀ : Core W L T} {inp : ℕ → CoreIn W L} {n f : ℕ}

theorem preAt_succ (n : ℕ) (hp : PretrigHeld c₀ inp) (h : (run c₀ inp n).st ≠ .idle)
    (h' : (run c₀ inp (n + 1)).st ≠ .idle)
    (hq : (run c₀ inp (n + 1)).windowsQ = (run c₀ inp n).windowsQ) :
    preAt c₀ inp (n + 1) = preAt c₀ inp n := by
  rw [preAt, preAt, hp n h h', hq]

variable (hL : 1 ≤ L) (hL' : L ≤ 16)
include hL hL'

/-- A cycle inside the window that stores every valid sample. -/
theorem InWindow.advance (h : InWindow c₀ inp n f)
    (hw : captureWr (run c₀ inp n) (inp n) = (inp n).sampleValid)
    (hoff : (run c₀ inp (n + 1)).offset = (datapath (run c₀ inp n) (inp n)).offset)
    (hwr : (run c₀ inp (n + 1)).wrapped = (datapath (run c₀ inp n) (inp n)).wrapped)
    (hb : (run c₀ inp (n + 1)).base = (run c₀ inp n).base)
    (hq : (run c₀ inp (n + 1)).windowsQ = (run c₀ inp n).windowsQ)
    (hm : (run c₀ inp (n + 1)).uBuf = (datapath (run c₀ inp n) (inp n)).uBuf) :
    InWindow c₀ inp (n + 1) f :=
  ⟨h.begins, (h.slice.advance hL hL' (shape_run hL hL' c₀ inp n) hw).congr hoff hwr hb hq hm⟩

/-- The first `FILLING` cycle of a window. -/
theorem Phase.of_start (hs : (run c₀ inp n).st = .idle ∨ (run c₀ inp n).st = .done)
    (hst : (run c₀ inp (n + 1)).st = .filling) (ho : (run c₀ inp (n + 1)).offset = 0)
    (hw : (run c₀ inp (n + 1)).wrapped = false) (hc : (run c₀ inp (n + 1)).fillCnt = 0) :
    Phase c₀ inp (n + 1) := by
  refine .filling (n + 1) ⟨⟨n, rfl, hs⟩, SliceInv.begin hL hL' inp (n + 1) ho hw⟩ ?_ ?_ ?_
  · intro v h₁ h₂
    rw [show v = n + 1 by omega, hst]
  · rw [hc, stored_self]; rfl
  · exact Or.inl (stored_self inp _)

omit hL' in
/-- The counter of the `FILLING` state follows the stored samples. -/
theorem stored_fillNext (hf : f ≤ n) (hs : (run c₀ inp n).st = .filling)
    (hcnt : (run c₀ inp n).fillCnt.toNat = stored inp f n) :
    (fillNext (run c₀ inp n) (inp n)).toNat = stored inp f (n + 1) := by
  rw [fillNext_toNat hL, hcnt, fillWr, captureWr_filling _ (Or.inl hs), hs]
  cases hv : (inp n).sampleValid with
  | true => rw [stored_valid hf hv]; rfl
  | false => rw [stored_gap hv]; rfl

theorem pretrigEff_le_iff {c : Core W L T} (h : Shape c) (i : CoreIn W L) :
    (pretrigEff c i).setWidth (L + 1) ≤ fillNext c i ↔
      pretrigOf L i.pretrig c.windowsQ ≤ (fillNext c i).toNat := by
  have hlt := (pretrigEff c i).isLt
  rw [BitVec.le_def, BitVec.toNat_setWidth, pow_succ, Nat.mod_eq_of_lt (by omega),
    pretrigEff_toNat hL hL' h]

/-- The fill counter does not overflow before the history is complete. -/
theorem fillCnt_datapath {c : Core W L T} (h : Shape c) {i : CoreIn W L}
    (hlt : ¬ (pretrigEff c i).setWidth (L + 1) ≤ fillNext c i) :
    (datapath c i).fillCnt.toNat = (fillNext c i).toNat := by
  have hbound := pretrigOf_lt hL hL' i.pretrig c.windowsQ
  have hsize := sliceSize_le hL hL' c.windowsQ
  rw [pretrigEff_le_iff hL hL' h] at hlt
  rw [fillNext_toNat hL] at hlt ⊢
  unfold depth at hsize
  change (if fillWr c i then c.fillCnt + 1 else c.fillCnt : BitVec L).toNat = _
  cases hfw : fillWr c i with
  | false => rfl
  | true =>
    rw [hfw, Bool.toNat_true] at hlt
    rw [if_pos rfl, BitVec.toNat_add, toNat_one hL, Bool.toNat_true]
    exact Nat.mod_eq_of_lt (by omega)

/-- `FILLING` without enough history. -/
theorem Phase.fill (hp : PretrigHeld c₀ inp) (h : Phase c₀ inp n)
    (hs : (run c₀ inp n).st = .filling)
    (hlt : ¬ (pretrigEff (run c₀ inp n) (inp n)).setWidth (L + 1) ≤
      fillNext (run c₀ inp n) (inp n))
    (hc : run c₀ inp (n + 1) = datapath (run c₀ inp n) (inp n)) : Phase c₀ inp (n + 1) := by
  cases h with
  | quiet hq => simp [hs] at hq
  | armed f hw hs' => simp [hs] at hs'
  | triggered f u _ hu _ _ ha => exact absurd (ha n hu le_rfl) (by simp [hs])
  | filling f hw hall hcnt hpre =>
    have hst : (run c₀ inp (n + 1)).st = .filling := by rw [hc]; exact hs
    have hnext := stored_fillNext hL hw.slice.f_le hs hcnt
    have hsh := shape_run hL hL' c₀ inp n
    have hcnt' := fillCnt_datapath hL hL' hsh hlt
    rw [pretrigEff_le_iff hL hL' hsh, hnext, ← preAt] at hlt
    have hpn := preAt_succ n hp (by simp [hs]) (by simp [hst]) (by rw [hc]; rfl)
    refine .filling f ?_ (extend_range hall hst) ?_ (Or.inr (by omega))
    · exact hw.advance hL hL' (captureWr_filling _ (Or.inl hs)) (by rw [hc]) (by rw [hc])
        (by rw [hc]; rfl) (by rw [hc]; rfl) (by rw [hc])
    · rw [hc, hcnt']
      exact hnext

/-- `FILLING` hands over to `ARMED` once the history is complete. -/
theorem Phase.backlog (hp : PretrigHeld c₀ inp) (h : Phase c₀ inp n)
    (hs : (run c₀ inp n).st = .filling)
    (hle : (pretrigEff (run c₀ inp n) (inp n)).setWidth (L + 1) ≤
      fillNext (run c₀ inp n) (inp n))
    (hc : run c₀ inp (n + 1) = { datapath (run c₀ inp n) (inp n) with st := .armed }) :
    Phase c₀ inp (n + 1) := by
  cases h with
  | quiet hq => simp [hs] at hq
  | armed f hw hs' => simp [hs] at hs'
  | triggered f u _ hu _ _ ha => exact absurd (ha n hu le_rfl) (by simp [hs])
  | filling f hw hall hcnt hpre =>
    have hst : (run c₀ inp (n + 1)).st = .armed := by rw [hc]
    have hnext := stored_fillNext hL hw.slice.f_le hs hcnt
    rw [pretrigEff_le_iff hL hL' (shape_run hL hL' c₀ inp n), hnext, ← preAt] at hle
    have hpn := preAt_succ n hp (by simp [hs]) (by simp [hst]) (by rw [hc]; rfl)
    refine .armed f ?_ hst ?_ (by omega)
    · exact hw.advance hL hL' (captureWr_filling _ (Or.inl hs)) (by rw [hc]) (by rw [hc])
        (by rw [hc]; rfl) (by rw [hc]; rfl) (by rw [hc])
    · exact extend_range (fun v h₁ h₂ => Or.inl (hall v h₁ h₂)) (Or.inr hst)

/-- `ARMED` without a trigger: the write pointer runs on. -/
theorem Phase.circulate (hp : PretrigHeld c₀ inp) (h : Phase c₀ inp n)
    (hs : (run c₀ inp n).st = .armed)
    (hc : run c₀ inp (n + 1) = datapath (run c₀ inp n) (inp n)) : Phase c₀ inp (n + 1) := by
  cases h with
  | quiet hq => simp [hs] at hq
  | filling f hw hall => exact absurd (hall n hw.slice.f_le le_rfl) (by simp [hs])
  | triggered f u _ hu _ _ ha => exact absurd (ha n hu le_rfl) (by simp [hs])
  | armed f hw _ hb hpre =>
    have hst : (run c₀ inp (n + 1)).st = .armed := by rw [hc]; exact hs
    have hpn := preAt_succ n hp (by simp [hs]) (by simp [hst]) (by rw [hc]; rfl)
    have hmono := presented_length_mono inp (show n ≤ n + 1 by omega)
    refine .armed f ?_ hst (extend_range hb (Or.inr hst)) ?_
    · exact hw.advance hL hL' (captureWr_filling _ (Or.inr hs)) (by rw [hc]) (by rw [hc])
        (by rw [hc]; rfl) (by rw [hc]; rfl) (by rw [hc])
    · unfold stored at *
      omega

/-- The accepting cycle: its sample is stored, and its address latched. -/
theorem Phase.trigger (hp : PretrigHeld c₀ inp) (h : Phase c₀ inp n)
    (hacc : trigAccept (run c₀ inp n) (inp n) = true)
    (hc : run c₀ inp (n + 1) = { datapath (run c₀ inp n) (inp n) with st := .triggered }) :
    Phase c₀ inp (n + 1) := by
  have hs := trigAccept_state hacc
  have hsh := shape_run hL hL' c₀ inp n
  cases h with
  | quiet hq => simp [hs] at hq
  | filling f hw hall => exact absurd (hall n hw.slice.f_le le_rfl) (by simp [hs])
  | triggered f u _ hu _ _ ha => exact absurd (ha n hu le_rfl) (by simp [hs])
  | armed f hw _ hb hpre =>
    have hst : (run c₀ inp (n + 1)).st = .triggered := by rw [hc]
    have hpn := preAt_succ n hp (by simp [hs]) (by simp [hst]) (by rw [hc]; rfl)
    have hbound := pretrigOf_lt hL hL' (inp n).pretrig (run c₀ inp n).windowsQ
    have hsize : sizeAt c₀ inp (n + 1) = sizeAt c₀ inp n := by rw [sizeAt, hc]; rfl
    refine .triggered f n ?_ (Nat.lt_succ_self n) hacc hb ?_ hw.slice.f_le (by omega) ?_ ?_
    · exact hw.advance hL hL' (captureWr_filling _ (Or.inr hs)) (by rw [hc]) (by rw [hc])
        (by rw [hc]; rfl) (by rw [hc]; rfl) (by rw [hc])
    · intro v h₁ h₂
      rw [show v = n + 1 by omega, hst]
    · rw [hsize, hc]
      change (datapath (run c₀ inp n) (inp n)).trigIndex.toNat = _
      rw [trigIndex_accepted hacc, wrAddrW_toNat hL hL' hsh, hw.slice.offset]
      rfl
    · rw [hsize, hpn, stored_valid hw.slice.f_le (trigAccept_valid hacc), hc]
      change (if trigAccept (run c₀ inp n) (inp n) then _ else _ : BitVec (L + 1)).toNat + _ + _ = _
      rw [if_pos hacc, budget_toNat hL hL' hsh]
      unfold preAt sizeAt
      omega

omit hL hL' in
/-- In `TRIGGERED` the post counter takes its next value. -/
theorem postRemaining_datapath {c : Core W L T} {i : CoreIn W L} (hs : c.st = .triggered) :
    (datapath c i).postRemaining = postNext c i := by
  change (if trigAccept c i then _ else if postWr c i then _ else c.postRemaining) = _
  rw [trigAccept_of_ne _ (by simp [hs]), if_neg (by simp)]
  split
  · rfl
  · rename_i h
    have h' : postWr c i = false := by simpa using h
    simp [postNext, h']

/-- `TRIGGERED` with budget left. -/
theorem Phase.post (hp : PretrigHeld c₀ inp) (h : Phase c₀ inp n)
    (hs : (run c₀ inp n).st = .triggered) (hne : postNext (run c₀ inp n) (inp n) ≠ 0)
    (hc : run c₀ inp (n + 1) = datapath (run c₀ inp n) (inp n)) : Phase c₀ inp (n + 1) := by
  cases h with
  | quiet hq => simp [hs] at hq
  | filling f hw hall => exact absurd (hall n hw.slice.f_le le_rfl) (by simp [hs])
  | armed f hw hs' => simp [hs] at hs'
  | triggered f u hw hu hacc hb ha hf hpre hidx hpost =>
    have hst : (run c₀ inp (n + 1)).st = .triggered := by rw [hc]; exact hs
    have hpn := preAt_succ n hp (by simp [hs]) (by simp [hst]) (by rw [hc]; rfl)
    have hsize : sizeAt c₀ inp (n + 1) = sizeAt c₀ inp n := by rw [sizeAt, hc]; rfl
    have hsum := postNext_toNat hL (run c₀ inp n) (inp n)
    have hnonzero : (run c₀ inp n).postRemaining ≠ 0 := by
      intro h0
      have h0' : (run c₀ inp n).postRemaining.toNat = 0 := by rw [h0]; rfl
      exact hne (BitVec.eq_of_toNat_eq (by
        change (postNext (run c₀ inp n) (inp n)).toNat = 0
        omega))
    have hcap : captureWr (run c₀ inp n) (inp n) = (inp n).sampleValid := by
      rw [captureWr_triggered _ hs, bne_iff_ne.mpr hnonzero, Bool.and_true]
    have hstored : stored inp f (n + 1) = stored inp f n +
        (postWr (run c₀ inp n) (inp n)).toNat := by
      rw [postWr, hcap, hs]
      cases hv : (inp n).sampleValid with
      | true => rw [stored_valid hw.slice.f_le hv]; rfl
      | false => rw [stored_gap hv]; rfl
    refine .triggered f u ?_ (by omega) hacc hb (extend_range ha hst) hf (by omega) ?_ ?_
    · exact hw.advance hL hL' hcap (by rw [hc]) (by rw [hc]) (by rw [hc]; rfl) (by rw [hc]; rfl)
        (by rw [hc])
    · rw [hsize, hc, datapath_base, ← hidx, trigIndex_kept _ (by simp [hs])]
    · rw [hsize, hpn, hc, postRemaining_datapath hs]
      omega

/-- One step of the run keeps track of the window in flight. -/
theorem phase_step (hp : PretrigHeld c₀ inp) (h : Phase c₀ inp n) : Phase c₀ inp (n + 1) := by
  have hm := step_move (run c₀ inp n) (inp n)
  rw [← run_succ] at hm
  generalize hc : run c₀ inp (n + 1) = c' at hm
  cases hm with
  | abort _ => exact .quiet (Or.inl (by rw [hc]))
  | start ha =>
    simp only [armAccept, Bool.and_eq_true, Bool.or_eq_true, beq_iff_eq] at ha
    exact .of_start hL hL' ha.2 (by rw [hc]; rfl) (by rw [hc]; rfl) (by rw [hc]; rfl)
      (by rw [hc]; rfl)
  | rest _ hs _ => exact .quiet (Or.inl (by rw [hc]; exact hs))
  | fill _ hs hlt => exact h.fill hL hL' hp hs hlt hc
  | backlog _ hs hle => exact h.backlog hL hL' hp hs hle hc
  | circulate _ hs _ => exact h.circulate hL hL' hp hs hc
  | trigger _ _ hacc => exact h.trigger hL hL' hp hacc hc
  | post _ hs hne => exact h.post hL hL' hp hs hne hc
  | complete _ _ _ => exact .quiet (Or.inr (by rw [hc]))
  | rearm _ hs _ _ =>
    exact .of_start hL hL' (Or.inr hs) (by rw [hc]; rfl) (by rw [hc]; rfl) (by rw [hc]; rfl)
      (by rw [hc]; rfl)
  | park _ hs _ _ => exact .quiet (Or.inr (by rw [hc]; exact hs))

/-- Every cycle of a run is in a known phase. -/
theorem phase_run (hp : PretrigHeld c₀ inp) (n : ℕ) : Phase c₀ inp n :=
  invariant_of_step (Phase c₀ inp) (.quiet (Or.inl rfl)) (fun _ h => phase_step hL hL' hp h) n

end Step

end FpgaScope.Core
