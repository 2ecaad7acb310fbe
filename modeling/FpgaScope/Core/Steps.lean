import FpgaScope.Core.Geometry
import FpgaScope.Lib.Trace

/-! What one cycle of `scope_core` can do. `Move` lists the FSM moves with their
guards, `step_move` says the step function makes exactly one of them, and the
structural invariant `Shape` follows by one case per move. -/

namespace FpgaScope.Core

variable {W L T : ℕ}

/-- `arm` is honoured: the FSM is in `IDLE` or `DONE` and `disarm` is low. -/
def armAccept (c : Core W L T) (i : CoreIn W L) : Bool :=
  i.arm && !i.disarm && (c.st == .idle || c.st == .done)

/-- The moves of the capture FSM. -/
inductive Move (c : Core W L T) (i : CoreIn W L) : Core W L T → Prop
  | abort (hd : i.disarm = true) : Move c i { datapath c i with st := .idle }
  | start (h : armAccept c i = true) : Move c i (startRun (datapath c i) i)
  | rest (hd : i.disarm = false) (hs : c.st = .idle) (ha : i.arm = false) : Move c i (datapath c i)
  | fill (hd : i.disarm = false) (hs : c.st = .filling)
      (h : ¬ (pretrigEff c i).setWidth (L + 1) ≤ fillNext c i) : Move c i (datapath c i)
  | backlog (hd : i.disarm = false) (hs : c.st = .filling)
      (h : (pretrigEff c i).setWidth (L + 1) ≤ fillNext c i) :
      Move c i { datapath c i with st := .armed }
  | circulate (hd : i.disarm = false) (hs : c.st = .armed) (h : trigAccept c i = false) :
      Move c i (datapath c i)
  | trigger (hd : i.disarm = false) (hs : c.st = .armed) (h : trigAccept c i = true) :
      Move c i { datapath c i with st := .triggered }
  | post (hd : i.disarm = false) (hs : c.st = .triggered) (h : postNext c i ≠ 0) :
      Move c i (datapath c i)
  | complete (hd : i.disarm = false) (hs : c.st = .triggered) (h : postNext c i = 0) :
      Move c i { datapath c i with st := .done, windowsDone := c.windowsDone + 1 }
  | rearm (hd : i.disarm = false) (hs : c.st = .done) (ha : i.arm = false)
      (h : c.windowsDone < c.windowsQ) : Move c i (nextWindow (datapath c i))
  | park (hd : i.disarm = false) (hs : c.st = .done) (ha : i.arm = false)
      (h : ¬ c.windowsDone < c.windowsQ) : Move c i (datapath c i)

theorem step_move (c : Core W L T) (i : CoreIn W L) : Move c i (step c i) := by
  unfold step control
  by_cases hd : i.disarm = true
  · rw [if_pos hd]
    exact .abort hd
  · rw [if_neg hd]
    have hd' : i.disarm = false := by simpa using hd
    cases hs : c.st with
    | idle =>
      by_cases ha : i.arm = true
      · simp only [ha, ↓reduceIte]
        exact .start (by simp [armAccept, ha, hd', hs])
      · simp only [ha, Bool.false_eq_true, ↓reduceIte]
        exact .rest hd' hs (by simpa using ha)
    | filling =>
      by_cases h : (pretrigEff c i).setWidth (L + 1) ≤ fillNext c i
      · simp only [h, ↓reduceIte]
        exact .backlog hd' hs h
      · simp only [h, ↓reduceIte]
        exact .fill hd' hs h
    | armed =>
      by_cases h : trigAccept c i = true
      · simp only [h, ↓reduceIte]
        exact .trigger hd' hs h
      · simp only [h, Bool.false_eq_true, ↓reduceIte]
        exact .circulate hd' hs (by simpa using h)
    | triggered =>
      by_cases h : postNext c i = 0
      · simp only [h, ↓reduceIte]
        exact .complete hd' hs h
      · simp only [h, ↓reduceIte]
        exact .post hd' hs h
    | done =>
      by_cases ha : i.arm = true
      · simp only [ha, ↓reduceIte]
        exact .start (by simp [armAccept, ha, hd', hs])
      · by_cases h : c.windowsDone < c.windowsQ
        · simp only [ha, Bool.false_eq_true, h, ↓reduceIte]
          exact .rearm hd' hs (by simpa using ha) h
        · simp only [ha, Bool.false_eq_true, h, ↓reduceIte]
          exact .park hd' hs (by simpa using ha) h

/-! ### What the datapath leaves alone -/

section Frame
variable (c : Core W L T) (i : CoreIn W L)

@[simp] theorem datapath_st : (datapath c i).st = c.st := rfl
@[simp] theorem datapath_base : (datapath c i).base = c.base := rfl
@[simp] theorem datapath_windowsQ : (datapath c i).windowsQ = c.windowsQ := rfl
@[simp] theorem datapath_winIdx : (datapath c i).winIdx = c.winIdx := rfl
@[simp] theorem datapath_windowsDone : (datapath c i).windowsDone = c.windowsDone := rfl
@[simp] theorem datapath_weffLog2Q : (datapath c i).weffLog2Q = c.weffLog2Q := rfl

end Frame

/-- The timestamp counts cycles; the trigger registers are loaded on an accepted
trigger only. -/
theorem step_latches (c : Core W L T) (i : CoreIn W L) : (step c i).ts = c.ts + 1 ∧
    (step c i).trigIndex = (if trigAccept c i then wrAddrW c else c.trigIndex) ∧
    (step c i).tsAtTrig = (if trigAccept c i then c.ts else c.tsAtTrig) := by
  have hm := step_move c i
  generalize step c i = c' at hm
  cases hm <;> exact ⟨rfl, rfl, rfl⟩

/-! ### The wires, state by state -/

theorem captureWr_quiet {c : Core W L T} (i : CoreIn W L) (h : c.st = .idle ∨ c.st = .done) :
    captureWr c i = false := by
  rcases h with h | h <;> simp [captureWr, h]

theorem trigAccept_state {c : Core W L T} {i : CoreIn W L} (h : trigAccept c i = true) :
    c.st = .armed := by
  simp only [trigAccept, Bool.and_eq_true, beq_iff_eq] at h
  exact h.2

theorem trigAccept_valid {c : Core W L T} {i : CoreIn W L} (h : trigAccept c i = true) :
    i.sampleValid = true := by
  simp only [trigAccept, Bool.and_eq_true] at h
  exact h.1.2

theorem trigAccept_of_ne {c : Core W L T} (i : CoreIn W L) (h : c.st ≠ .armed) :
    trigAccept c i = false := by
  simp [trigAccept, h]

/-- An accepted trigger latches the slot of its sample. -/
theorem trigIndex_accepted {c : Core W L T} {i : CoreIn W L} (h : trigAccept c i = true) :
    (datapath c i).trigIndex = wrAddrW c := by
  change (if trigAccept c i then _ else _ : BitVec L) = _
  rw [if_pos h]

theorem trigIndex_kept {c : Core W L T} (i : CoreIn W L) (h : c.st ≠ .armed) :
    (datapath c i).trigIndex = c.trigIndex := by
  change (if trigAccept c i then _ else _ : BitVec L) = _
  rw [trigAccept_of_ne i h, if_neg (by decide)]

theorem wrapped_datapath (c : Core W L T) (i : CoreIn W L) :
    (datapath c i).wrapped = wrappedNext c i := by
  change (if captureWr c i then _ else _) = _
  cases hw : captureWr c i <;> simp [wrappedNext, hw]

theorem windowDoneNow_of_ne {c : Core W L T} (i : CoreIn W L) (h : c.st ≠ .triggered) :
    windowDoneNow c i = false := by
  simp [windowDoneNow, h]

/-- While `FILLING` or `ARMED` every valid sample is stored. -/
theorem captureWr_filling {c : Core W L T} (i : CoreIn W L) (h : c.st = .filling ∨ c.st = .armed) :
    captureWr c i = i.sampleValid := by
  rcases h with h | h <;> simp [captureWr, h]

theorem captureWr_triggered {c : Core W L T} (i : CoreIn W L) (h : c.st = .triggered) :
    captureWr c i = (i.sampleValid && c.postRemaining != 0) := by
  rw [captureWr, h]
  rfl

theorem captureWr_valid {c : Core W L T} {i : CoreIn W L} (h : captureWr c i = true) :
    i.sampleValid = true := by
  simp only [captureWr, Bool.and_eq_true] at h
  exact h.1

/-! ### Structural invariant -/

/-- Facts about the geometry registers that hold in every reachable state. -/
structure Shape (c : Core W L T) : Prop where
  weff : c.weffLog2Q = weffLog2Of L c.windowsQ
  mask : c.sliceMask.toNat = sliceSize L c.windowsQ - 1
  offset_lt : c.offset.toNat < sliceSize L c.windowsQ
  base : c.base.toNat = c.winIdx.toNat * sliceSize L c.windowsQ % depth L
  idx : c.winIdx = 0 ∨ c.winIdx < c.windowsQ
  count : c.st = .filling ∨ c.st = .armed ∨ c.st = .triggered → c.windowsDone = c.winIdx
  count_done : c.st = .done → c.windowsDone = c.winIdx + 1

section
variable (hL : 1 ≤ L) (hL' : L ≤ 16)
include hL hL'

theorem Shape.reset (c : Core W L T) : Shape c.reset := by
  have hsize : sliceSize L 1#8 = depth L := by
    rw [sliceSize_eq hL hL', weffLog2Of_toNat hL hL', depth]
    simp
  refine ⟨?_, ?_, ?_, ?_, Or.inl rfl, by simp [Core.reset], by simp [Core.reset]⟩
  · apply BitVec.eq_of_toNat_eq
    change 0 = (weffLog2Of L 1#8).toNat
    rw [weffLog2Of_toNat hL hL']
    simp
  · change (BitVec.allOnes L).toNat = sliceSize L 1#8 - 1
    rw [hsize, BitVec.toNat_allOnes, depth]
  · change (0#L).toNat < sliceSize L 1#8
    simpa using sliceSize_pos hL hL' _
  · simp [Core.reset]

/-- The next write offset wraps inside the slice. -/
theorem offset_next {c : Core W L T} (h : Shape c) :
    ((c.offset + 1) &&& c.sliceMask).toNat = (c.offset.toNat + 1) % sliceSize L c.windowsQ := by
  have hle := sliceSize_le hL hL' c.windowsQ
  rw [BitVec.toNat_and, h.mask, sliceSize_eq hL hL', Nat.and_two_pow_sub_one_eq_mod,
    BitVec.toNat_add, toNat_one hL]
  exact Nat.mod_mod_of_dvd _ (pow_dvd_pow 2 (by omega))

theorem Shape.datapath {c : Core W L T} (h : Shape c) (i : CoreIn W L) : Shape (datapath c i) := by
  refine ⟨h.weff, h.mask, ?_, h.base, h.idx, h.count, h.count_done⟩
  change (if captureWr c i then (c.offset + 1) &&& c.sliceMask else c.offset).toNat < _
  split
  · rw [offset_next hL hL' h]
    exact Nat.mod_lt _ (sliceSize_pos hL hL' _)
  · exact h.offset_lt

theorem Shape.startRun {c : Core W L T} (i : CoreIn W L) : Shape (startRun c i) := by
  have hpos := sliceSize_pos hL hL' i.windows
  refine ⟨rfl, sliceMaskOf_toNat hL hL' _, ?_, ?_, Or.inl rfl, fun _ => rfl, ?_⟩
  · simpa [Core.startRun] using hpos
  · simp [Core.startRun]
  · intro h
    cases h

theorem Shape.nextWindow {c : Core W L T} (h : Shape c) (hs : c.st = .done)
    (hlt : c.windowsDone < c.windowsQ) : Shape (nextWindow c) := by
  have hpos := sliceSize_pos hL hL' c.windowsQ
  have hdone := h.count_done hs
  rw [hdone, BitVec.lt_def] at hlt
  have hidx : (c.winIdx + 1).toNat = c.winIdx.toNat + 1 := by
    have hw := c.windowsQ.isLt
    rw [BitVec.toNat_add] at hlt ⊢
    rcases h.idx with h0 | h0
    · simp [h0]
    · rw [BitVec.lt_def] at h0
      change (c.winIdx.toNat + 1) % 2 ^ 8 = c.winIdx.toNat + 1
      exact Nat.mod_eq_of_lt (by omega)
  refine ⟨h.weff, h.mask, ?_, ?_, Or.inr (BitVec.lt_def.mpr hlt), fun _ => hdone, ?_⟩
  · simpa [Core.nextWindow] using hpos
  · change (c.base + c.sliceMask + 1).toNat = (c.winIdx + 1).toNat * sliceSize L c.windowsQ % depth L
    rw [hidx, BitVec.toNat_add, BitVec.toNat_add, toNat_one hL, h.base, h.mask, depth,
      Nat.mod_add_mod, Nat.add_assoc, Nat.sub_add_cancel hpos, Nat.mod_add_mod, Nat.add_one_mul]
  · intro h
    cases h

/-- Every move keeps the structural invariant. -/
theorem Shape.step {c : Core W L T} (h : Shape c) (i : CoreIn W L) : Shape (Core.step c i) := by
  have hd := h.datapath hL hL' i
  have hm := step_move c i
  generalize Core.step c i = c' at hm
  cases hm with
  | abort hdis =>
    exact ⟨hd.weff, hd.mask, hd.offset_lt, hd.base, hd.idx, by simp, by simp⟩
  | start _ => exact Shape.startRun hL hL' i
  | rest | fill | circulate | post | park => exact hd
  | backlog _ hs _ =>
    exact ⟨hd.weff, hd.mask, hd.offset_lt, hd.base, hd.idx,
      fun _ => h.count (Or.inl hs), by simp⟩
  | trigger _ hs _ =>
    exact ⟨hd.weff, hd.mask, hd.offset_lt, hd.base, hd.idx,
      fun _ => h.count (Or.inr (Or.inl hs)), by simp⟩
  | complete _ hs _ =>
    refine ⟨hd.weff, hd.mask, hd.offset_lt, hd.base, hd.idx, by simp, fun _ => ?_⟩
    change c.windowsDone + 1 = c.winIdx + 1
    rw [h.count (Or.inr (Or.inr hs))]
  | rearm _ hs _ hlt => exact hd.nextWindow hL hL' hs hlt

end

end FpgaScope.Core
