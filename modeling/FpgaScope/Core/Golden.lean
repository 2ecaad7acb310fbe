import FpgaScope.Core.Progress
import FpgaScope.Sim.WindowsModel

/-! The capture core against the golden capture model. Cycle for cycle the registers of the
core are the variables of the model, as long as the core gets the samples of the stimulus
and the trigger in the cycles in which the model triggers. -/

namespace FpgaScope.Core

open Clocked Sim

variable {W L T : ℕ}

/-! ### Geometry -/

theorem weffLog2Of_golden (hL : 1 ≤ L) (hL' : L ≤ 16) (w : BitVec 8) :
    Sim.weffLog2Of w.toNat L = (weffLog2Of L w).toNat := by
  rw [Sim.weffLog2Of_eq, weffLog2Of_toNat hL hL']

theorem sliceMask_golden (hL : 1 ≤ L) (hL' : L ≤ 16) (w : BitVec 8) :
    ((1 <<< L) - 1) >>> Sim.weffLog2Of w.toNat L = sliceSize L w - 1 := by
  have hle : (2 ^ L - 1) >>> (weffLog2Of L w).toNat ≤ 2 ^ L - 1 := Nat.shiftRight_le _ _
  have hpos := Nat.two_pow_pos L
  rw [← sliceMaskOf_toNat hL hL', weffLog2Of_golden hL hL', Nat.one_shiftLeft, sliceMaskOf,
    BitVec.toNat_ofNat, Nat.mod_eq_of_lt (by omega)]

theorem pretrig_golden (hL : 1 ≤ L) (hL' : L ≤ 16) (pretrig : BitVec L) (w : BitVec 8) :
    pretrig.toNat >>> Sim.weffLog2Of w.toNat L = pretrigOf L pretrig w := by
  rw [weffLog2Of_golden hL hL', pretrigOf, weff_eq hL hL', Nat.log2_two_pow]

/-! ### The relation -/

/-- The state a value of `st` names. -/
def stateOf : WinSt → ScopeState
  | .filling => .filling
  | .armed => .armed
  | .triggered => .triggered
  | .done => .done

/-- The metadata entry of window `j` is the model's record of it. -/
def Entry (c : Core W L T) (j : ℕ) (m : WinMeta) : Prop :=
  ∃ a : BitVec L, m.trigIndex = some a.toNat ∧
    c.uWinMeta.mem (BitVec.ofNat 8 j) = BitVec.cons m.wrapped a

/-- The core is where the model is. -/
structure Follows (pretrig : BitVec L) (windows : BitVec 8) (c : Core W L T)
    (v : WinState (BitVec W)) : Prop where
  shape : Shape c
  target : c.windowsQ = windows
  st : c.st = stateOf v.st
  base : v.base = c.base.toNat
  off : v.off = c.offset.toNat
  wrapped : v.wrapped = c.wrapped
  win : v.win = c.winIdx.toNat
  win_lt : v.win < windows.toNat
  fill : v.st = .filling →
    v.fill = c.fillCnt.toNat ∧ (v.fill = 0 ∨ v.fill < pretrigOf L pretrig windows)
  post : v.st = .triggered → v.post = c.postRemaining.toNat
  index : v.st = .triggered → v.trigIndex = some c.trigIndex.toNat
  size : v.buf.length = depth L
  buf : ∀ a x, v.buf[a]? = some (some x) → bufAt c a = x
  count : v.metas.length = v.win + if v.st = .done then 1 else 0
  entries : ∀ j m, v.metas[j]? = some m → Entry c j m
  last : v.st = .done → ∃ m, v.metas.getLast? = some m ∧ m.trigIndex = some c.trigIndex.toNat ∧
    m.wrapped = c.wrapped

/-- The inputs of a cycle in which the model takes sample `s` and triggers if `acc`. -/
structure Drives (pretrig : BitVec L) (s : BitVec W) (acc : Bool) (i : CoreIn W L) : Prop where
  arm : i.arm = false
  disarm : i.disarm = false
  valid : i.sampleValid = true
  data : i.sampleData = s
  trig : i.trig = acc
  pretrig : i.pretrig = pretrig

section
variable {pretrig : BitVec L} {windows : BitVec 8} {c : Core W L T} {v : WinState (BitVec W)}
  {s : BitVec W} {acc : Bool} {i : CoreIn W L} {k : ℕ}

/-! ### The wires -/

theorem Follows.captureWr (h : Follows pretrig windows c v) (hi : Drives pretrig s acc i) :
    captureWr c i = v.wr := by
  have hst := h.st
  cases hs : v.st with
  | filling =>
    rw [hs] at hst
    rw [captureWr_filling i (Or.inl hst), hi.valid, WinState.wr, hs]
    rfl
  | armed =>
    rw [hs] at hst
    rw [captureWr_filling i (Or.inr hst), hi.valid, WinState.wr, hs]
    rfl
  | triggered =>
    rw [hs] at hst
    rw [captureWr_triggered i hst, hi.valid, WinState.wr, hs, h.post hs, Bool.eq_iff_iff]
    simp [← BitVec.toNat_inj]
  | done =>
    rw [hs] at hst
    rw [captureWr_quiet i (Or.inr hst), WinState.wr, hs]
    rfl

theorem Follows.trigAccept (h : Follows pretrig windows c v) (hi : Drives pretrig s acc i)
    (hacc : acc = true → v.st = .armed) : trigAccept c i = acc := by
  rw [Core.trigAccept, hi.trig, hi.valid, h.st]
  cases acc with
  | false => rfl
  | true => rw [hacc rfl]; rfl

theorem Follows.fillNext (hL : 1 ≤ L) (h : Follows pretrig windows c v) (hi : Drives pretrig s acc i)
    (hs : v.st = .filling) : v.fillNext = (fillNext c i).toNat := by
  rw [fillNext_toNat hL, Core.fillWr, h.captureWr hi, h.st, hs, ← (h.fill hs).1, WinState.fillNext,
    WinState.fillWr, hs]
  cases v.wr <;> rfl

theorem Follows.postNext (hL : 1 ≤ L) (h : Follows pretrig windows c v) (hi : Drives pretrig s acc i)
    (hs : v.st = .triggered) : v.postNext = ((postNext c i).toNat : ℤ) := by
  have hsum := postNext_toNat hL c i
  rw [Core.postWr, h.captureWr hi, h.st, hs] at hsum
  rw [WinState.postNext, WinState.postWr, hs, h.post hs]
  cases hw : v.wr with
  | false =>
    simp [hw] at hsum ⊢
    omega
  | true =>
    simp [hw, stateOf] at hsum ⊢
    omega

/-! ### The datapath -/

/-- One pass of the loop with the core's slice and pretrigger count. -/
def goldenCycle (pretrig : BitVec L) (windows : BitVec 8) (k : ℕ) (acc : Bool) (s : BitVec W)
    (v : WinState (BitVec W)) : WinState (BitVec W) :=
  WinState.cycle (1 <<< L) (sliceSize L windows - 1) (pretrigOf L pretrig windows) windows.toNat k acc s v

theorem goldenCycle_buf : (goldenCycle pretrig windows k acc s v).buf =
    if v.wr then v.buf.set (v.base ||| v.off) (some s) else v.buf :=
  (WinState.control_keeps _).1

section
variable (hL : 1 ≤ L) (hL' : L ≤ 16) (h : Follows pretrig windows c v) (hi : Drives pretrig s acc i)
include hL hL' h hi

theorem Follows.off_step : (if v.wr then (v.off + 1) &&& (sliceSize L windows - 1) else v.off) =
    (datapath c i).offset.toNat := by
  have hnext := offset_next hL hL' h.shape
  change _ = (if Core.captureWr c i then (c.offset + 1) &&& c.sliceMask else c.offset).toNat
  rw [h.captureWr hi]
  cases v.wr with
  | false => exact h.off
  | true =>
    rw [if_pos rfl, if_pos rfl, hnext, h.target, sliceSize_eq hL hL', Nat.and_two_pow_sub_one_eq_mod, h.off]

omit hL hL' in
theorem Follows.wrapped_step :
    (if v.wr then (if v.off = sliceSize L windows - 1 then true else v.wrapped) else v.wrapped) =
      (datapath c i).wrapped := by
  have hmask : (c.offset == c.sliceMask) = decide (v.off = sliceSize L windows - 1) := by
    simp only [h.off, ← h.target, ← h.shape.mask, BitVec.toNat_inj]
    rfl
  rw [wrapped_datapath, wrappedNext, h.captureWr hi, hmask, h.wrapped]
  cases v.wr with
  | false => simp
  | true =>
    by_cases ho : v.off = sliceSize L windows - 1 <;> simp [ho]

omit hL hL' hi in
theorem Follows.addr : v.base ||| v.off = (wrAddrW c).toNat := by
  rw [wrAddrW, BitVec.toNat_or, h.base, h.off]

omit hL hL' hi in
theorem Follows.size_step (k : ℕ) (acc : Bool) (s : BitVec W) :
    (goldenCycle pretrig windows k acc s v).buf.length = depth L := by
  rw [goldenCycle_buf]
  split
  · rw [List.length_set, h.size]
  · exact h.size

omit hL hL' in
theorem Follows.buf_step {a : ℕ} {x : BitVec W}
    (hx : (goldenCycle pretrig windows k acc s v).buf[a]? = some (some x)) : bufAt (step c i) a = x := by
  have ha : a < depth L := by
    rw [← h.size_step k acc s]
    exact (List.getElem?_eq_some_iff.mp hx).1
  have haddr : (wrAddrW c = BitVec.ofNat L a) ↔ v.base ||| v.off = a := by
    rw [h.addr, ← BitVec.toNat_inj, BitVec.toNat_ofNat,
      show a % 2 ^ L = a from Nat.mod_eq_of_lt ha]
  rw [goldenCycle_buf] at hx
  rw [bufAt, (step_memories c i).1]
  change (if Core.captureWr c i then Function.update c.uBuf.mem (wrAddrW c) i.sampleData else c.uBuf.mem) _ = x
  rw [h.captureWr hi, hi.data]
  cases hw : v.wr with
  | false =>
    rw [hw] at hx
    exact h.buf a x hx
  | true =>
    rw [hw, if_pos rfl, List.getElem?_set] at hx
    rw [if_pos rfl]
    by_cases he : v.base ||| v.off = a
    · rw [if_pos he] at hx
      rw [haddr.mpr he, Function.update_self]
      split at hx
      · exact Option.some.inj (Option.some.inj hx)
      · cases hx
    · rw [if_neg he] at hx
      rw [Function.update_of_ne fun hq => he (haddr.mp hq.symm)]
      exact h.buf a x hx

omit hL hL' hi in
theorem Follows.windowsDone : c.windowsDone.toNat = v.metas.length := by
  rw [h.count, h.win]
  have hst := h.st
  cases hs : v.st with
  | filling => rw [hs] at hst; rw [h.shape.count (Or.inl hst)]; rfl
  | armed => rw [hs] at hst; rw [h.shape.count (Or.inr (Or.inl hst))]; rfl
  | triggered => rw [hs] at hst; rw [h.shape.count (Or.inr (Or.inr hst))]; rfl
  | done =>
    rw [hs] at hst
    have hlt := h.win_lt
    have hmax := windows.isLt
    rw [h.win] at hlt
    rw [h.shape.count_done hst, BitVec.toNat_add, if_pos rfl]
    exact Nat.mod_eq_of_lt (by change c.winIdx.toNat + 1 < 2 ^ 8; omega)

/-- What holds of core and model after any cycle, whatever state comes next; `metas` are the
entries before it. -/
structure Written (windows : BitVec 8) (metas : List WinMeta) (c : Core W L T) (v : WinState (BitVec W)) : Prop where
  shape : Shape c
  target : c.windowsQ = windows
  size : v.buf.length = depth L
  buf : ∀ a x, v.buf[a]? = some (some x) → bufAt c a = x
  entries : ∀ j m, metas[j]? = some m → Entry c j m

theorem Follows.written (k : ℕ) :
    Written windows v.metas (step c i) (goldenCycle pretrig windows k acc s v) where
  shape := h.shape.step hL hL' i
  target := by rw [windowsQ_of_not_armAccept c i (by rw [armAccept, hi.arm]; rfl), h.target]
  size := h.size_step k acc s
  buf := fun _ _ => h.buf_step hi
  entries := fun j m hm => by
    obtain ⟨a, ha, he⟩ := h.entries j m hm
    refine ⟨a, ha, ?_⟩
    rw [Core.entry_step h.shape i (by rw [h.windowsDone]; exact (List.getElem?_eq_some_iff.mp hm).1), he]

/-! ### One cycle, state by state -/

/-- A cycle inside a window: the assignments, and state `σ` next. -/
theorem Follows.inside (σ : WinSt) (hσ : σ ≠ .done) (hs : v.st ≠ .done)
    (hc : step c i = { datapath c i with st := stateOf σ })
    (hv : goldenCycle pretrig windows k acc s v =
      { WinState.datapath (sliceSize L windows - 1) (pretrigOf L pretrig windows) k acc s v with st := σ })
    (hfill : σ = .filling → v.fillNext = (datapath c i).fillCnt.toNat ∧ v.fillNext < pretrigOf L pretrig windows)
    (hpost : σ = .triggered →
      (if acc then ((sliceSize L windows - 1 : ℕ) : ℤ) - pretrigOf L pretrig windows else v.postNext) =
        (datapath c i).postRemaining.toNat ∧
      (if acc then some (v.base ||| v.off) else v.trigIndex) = some (datapath c i).trigIndex.toNat) :
    Follows pretrig windows (step c i) (goldenCycle pretrig windows k acc s v) := by
  have hwritten := h.written hL hL' hi k
  have hcount := h.count
  rw [if_neg hs] at hcount
  rw [hc, hv] at hwritten ⊢
  exact {
    shape := hwritten.shape
    target := hwritten.target
    st := rfl
    base := h.base
    off := h.off_step hL hL' hi
    wrapped := h.wrapped_step hi
    win := h.win
    win_lt := h.win_lt
    fill := fun hq => ⟨(hfill hq).1, Or.inr (hfill hq).2⟩
    post := fun hq => (hpost hq).1
    index := fun hq => (hpost hq).2
    size := hwritten.size
    buf := hwritten.buf
    count := by rw [if_neg hσ]; exact hcount
    entries := hwritten.entries
    last := fun hq => absurd hq hσ }

theorem Follows.filling_step (hs : v.st = .filling) :
    Follows pretrig windows (step c i) (goldenCycle pretrig windows k acc s v) := by
  have hst : c.st = .filling := by rw [h.st, hs]; rfl
  have hnext := h.fillNext hL hi hs
  have hle := pretrigEff_le_iff hL hL' h.shape i
  rw [hi.pretrig, h.target, ← hnext] at hle
  by_cases hfull : pretrigOf L pretrig windows ≤ v.fillNext
  · refine h.inside hL hL' hi .armed (by decide) (by simp [hs]) ?_ ?_ (by simp) (by simp)
    · simp [step, control, hi.disarm, hst, hle, hfull, stateOf]
    · simp [goldenCycle, WinState.cycle, WinState.control, hs, hfull]
  · refine h.inside hL hL' hi .filling (by decide) (by simp [hs]) ?_ ?_ (fun _ => ⟨?_, by omega⟩) (by simp)
    · have hstep : step c i = datapath c i := by simp [step, control, hi.disarm, hst, hle, hfull]
      rw [hstep, stateOf, ← hst]
      rfl
    · simp [goldenCycle, WinState.cycle, WinState.control, hs, hfull]
      simp [← hs, WinState.datapath]
    · rw [hnext, fillCnt_datapath hL hL' h.shape (by rw [hle]; exact hfull)]

theorem Follows.armed_step (hs : v.st = .armed) :
    Follows pretrig windows (step c i) (goldenCycle pretrig windows k acc s v) := by
  have hst : c.st = .armed := by rw [h.st, hs]; rfl
  have hacc := h.trigAccept hi fun _ => hs
  cases acc with
  | false =>
    refine h.inside hL hL' hi .armed (by decide) (by simp [hs]) ?_ ?_ (by simp) (by simp)
    · have hstep : step c i = datapath c i := by simp [step, control, hi.disarm, hst, hacc]
      rw [hstep, stateOf, ← hst]
      rfl
    · simp [goldenCycle, WinState.cycle, WinState.control, hs]
      simp [← hs, WinState.datapath]
  | true =>
    have hlt := pretrigOf_lt hL hL' pretrig windows
    have hbudget := budget_toNat hL hL' h.shape i
    rw [h.target, hi.pretrig] at hbudget
    refine h.inside hL hL' hi .triggered (by decide) (by simp [hs]) ?_ ?_ (by simp) (fun _ => ⟨?_, ?_⟩)
    · simp [step, control, hi.disarm, hst, hacc, stateOf]
    · simp [goldenCycle, WinState.cycle, WinState.control, hs]
    · change _ = ((if Core.trigAccept c i then _ else _ : BitVec (L + 1)).toNat : ℤ)
      rw [hacc, if_pos rfl, if_pos rfl, hbudget]
      omega
    · rw [trigIndex_accepted hacc, if_pos rfl, h.addr]

omit hL hL' in
/-- The cycle that uses up the budget enters its window in the metadata RAM. -/
theorem Follows.completed_entry (hs : v.st = .triggered) (h0 : Core.postNext c i = 0) :
    Entry (step c i) v.metas.length ⟨v.accCycle, v.trigIndex, (datapath c i).wrapped⟩ := by
  have hst : c.st = .triggered := by rw [h.st, hs]; rfl
  have hidx : BitVec.ofNat 8 v.metas.length = c.winIdx := by
    rw [h.count, hs, if_neg (by decide), Nat.add_zero, h.win, BitVec.ofNat_toNat, BitVec.setWidth_eq]
  have hnow : windowDoneNow c i = true := by
    rw [windowDoneNow, hst, h0]
    simp
  refine ⟨c.trigIndex, h.index hs, ?_⟩
  rw [(step_memories c i).2]
  change (if windowDoneNow c i && !i.disarm then Function.update c.uWinMeta.mem c.winIdx _
    else c.uWinMeta.mem) _ = _
  rw [hnow, hi.disarm, if_pos (by decide), hidx, Function.update_self, wrapped_datapath]

theorem Follows.complete_step (hs : v.st = .triggered) (hacc : acc = false) (h0 : v.postNext = 0) :
    Follows pretrig windows (step c i) (goldenCycle pretrig windows k acc s v) := by
  subst hacc
  have hst : c.st = .triggered := by rw [h.st, hs]; rfl
  have hpost := h.postNext hL hi hs
  have hzero : Core.postNext c i = 0 := by
    apply BitVec.eq_of_toNat_eq
    rw [h0] at hpost
    change _ = 0
    omega
  have hstep : step c i = { datapath c i with st := .done, windowsDone := c.windowsDone + 1 } := by
    simp [step, control, hi.disarm, hst, hzero]
  have hindex : (datapath c i).trigIndex = c.trigIndex := trigIndex_kept _ (by simp [hst])
  have hcyc : goldenCycle pretrig windows k false s v =
      { WinState.datapath (sliceSize L windows - 1) (pretrigOf L pretrig windows) k false s v with
        metas := v.metas ++ [⟨v.accCycle, v.trigIndex, (datapath c i).wrapped⟩], st := .done } := by
    rw [← h.wrapped_step hi]
    simp [goldenCycle, WinState.cycle, WinState.control, hs, h0, WinState.datapath]
  have hwritten := h.written hL hL' hi k
  have hentry := h.completed_entry hi hs hzero
  rw [hstep] at hentry
  rw [hstep, hcyc] at hwritten ⊢
  exact {
    shape := hwritten.shape
    target := hwritten.target
    st := rfl
    base := h.base
    off := h.off_step hL hL' hi
    wrapped := h.wrapped_step hi
    win := h.win
    win_lt := h.win_lt
    fill := fun hq => by cases hq
    post := fun hq => by cases hq
    index := fun hq => by cases hq
    size := hwritten.size
    buf := hwritten.buf
    count := by
      rw [List.length_append, h.count, hs, if_neg (by decide), if_pos rfl]
      rfl
    entries := fun j m hm => by
      rw [List.getElem?_append] at hm
      split at hm
      · exact hwritten.entries j m hm
      · rename_i hj
        obtain ⟨hlt, hm⟩ := List.getElem?_eq_some_iff.mp hm
        rw [List.length_singleton] at hlt
        rw [List.getElem_singleton] at hm
        rw [← hm, show j = v.metas.length by omega]
        exact hentry
    last := fun _ => ⟨_, List.getLast?_concat .., by rw [hindex]; exact h.index hs, rfl⟩ }

theorem Follows.triggered_step (hs : v.st = .triggered) (hacc : acc = false) :
    Follows pretrig windows (step c i) (goldenCycle pretrig windows k acc s v) := by
  by_cases h0 : v.postNext = 0
  · exact h.complete_step hL hL' hi hs hacc h0
  · subst hacc
    have hst : c.st = .triggered := by rw [h.st, hs]; rfl
    have hpost := h.postNext hL hi hs
    have hne : Core.postNext c i ≠ 0 := fun hz => h0 (by rw [hpost, hz]; rfl)
    refine h.inside hL hL' hi .triggered (by decide) (by simp [hs]) ?_ ?_ (by simp) (fun _ => ⟨?_, ?_⟩)
    · have hstep : step c i = datapath c i := by
        rw [step, control, hi.disarm, if_neg (by decide), hst]
        exact if_neg hne
      rw [hstep, stateOf, ← hst]
      rfl
    · simp [goldenCycle, WinState.cycle, WinState.control, hs, h0]
      simp [← hs, WinState.datapath]
    · rw [postRemaining_datapath hst, ← hpost]
      rfl
    · rw [trigIndex_kept _ (by simp [hst]), if_neg (by simp), h.index hs]

theorem Follows.done_step (hs : v.st = .done) (hacc : acc = false) (hw : v.win + 1 < windows.toNat) :
    Follows pretrig windows (step c i) (goldenCycle pretrig windows k acc s v) := by
  subst hacc
  have hst : c.st = .done := by rw [h.st, hs]; rfl
  have hdone := h.windowsDone
  rw [h.count, if_pos hs] at hdone
  have hlt : c.windowsDone < c.windowsQ := by rw [BitVec.lt_def, hdone, h.target]; exact hw
  have hstep : step c i = nextWindow (datapath c i) := by
    rw [step_done hst hi.disarm (by rw [armAccept, hi.arm]; rfl), if_pos hlt]
  have hcyc : goldenCycle pretrig windows k false s v =
      WinState.nextSlice (1 <<< L) (sliceSize L windows - 1)
        { WinState.datapath (sliceSize L windows - 1) (pretrigOf L pretrig windows) k false s v with
          win := v.win + 1 } := by
    simp [goldenCycle, WinState.cycle, WinState.control, hs, hw]
  have hwritten := h.written hL hL' hi k
  rw [hstep, hcyc] at hwritten ⊢
  exact {
    shape := hwritten.shape
    target := hwritten.target
    st := rfl
    base := by
      change (v.base + (sliceSize L windows - 1) + 1) &&& ((1 <<< L) - 1) = (c.base + c.sliceMask + 1).toNat
      rw [Nat.one_shiftLeft, Nat.and_two_pow_sub_one_eq_mod, BitVec.toNat_add, BitVec.toNat_add, toNat_one hL,
        h.shape.mask, h.target, h.base, Nat.mod_add_mod]
    off := rfl
    wrapped := rfl
    win := by
      have hmax := windows.isLt
      rw [h.win] at hw
      change v.win + 1 = (c.winIdx + 1).toNat
      rw [BitVec.toNat_add, h.win]
      exact (Nat.mod_eq_of_lt (by omega)).symm
    win_lt := hw
    fill := fun _ => ⟨rfl, Or.inl rfl⟩
    post := fun hq => by cases hq
    index := fun hq => by cases hq
    size := hwritten.size
    buf := hwritten.buf
    count := by
      change v.metas.length = v.win + 1 + 0
      rw [h.count, if_pos hs]
    entries := hwritten.entries
    last := fun hq => by cases hq }

/-- A cycle of the core is a pass of the loop. -/
theorem Follows.step (hacc : acc = true → v.st = .armed) (hr : v.returns windows.toNat = false) :
    Follows pretrig windows (Core.step c i) (goldenCycle pretrig windows k acc s v) := by
  have hno : v.st ≠ .armed → acc = false := fun hne => by
    cases acc with
    | false => rfl
    | true => exact absurd (hacc rfl) hne
  cases hs : v.st with
  | filling => exact h.filling_step hL hL' hi hs
  | armed => exact h.armed_step hL hL' hi hs
  | triggered => exact h.triggered_step hL hL' hi hs (hno (by simp [hs]))
  | done => exact h.done_step hL hL' hi hs (hno (by simp [hs])) (by simpa [WinState.returns, hs] using hr)

end

/-! ### The run -/

/-- The first cycle of the first window. -/
theorem Follows.start (hL : 1 ≤ L) (hL' : L ≤ 16) (hst : c.st = .idle) (harm : i.arm = true)
    (hdis : i.disarm = false) (hw : i.windows = windows) (h1 : 1 ≤ windows.toNat) :
    Follows pretrig windows (Core.step c i) (WinState.start (1 <<< L)) := by
  have hstep : Core.step c i = startRun (datapath c i) i := by simp [Core.step, control, hdis, hst, harm]
  rw [hstep]
  exact {
    shape := Shape.startRun hL hL' i
    target := hw
    st := rfl
    base := rfl
    off := rfl
    wrapped := rfl
    win := rfl
    win_lt := h1
    fill := fun _ => ⟨rfl, Or.inl rfl⟩
    post := fun hq => by cases hq
    index := fun hq => by cases hq
    size := List.length_replicate.trans (Nat.one_shiftLeft L)
    buf := fun a x hx => by
      obtain ⟨_, hx⟩ := List.getElem?_eq_some_iff.mp hx
      simp [WinState.start] at hx
    count := rfl
    entries := fun j m hm => by simp [WinState.start] at hm
    last := fun hq => by cases hq }

end

/-- The inputs of a run armed in cycle 0: the settings, the stimulus from the next cycle on,
and the trigger in the cycles `metas` records. -/
structure Replays (inp : ℕ → CoreIn W L) (pretrig : BitVec L) (windows : BitVec 8)
    (stim : List (BitVec W)) (metas : List WinMeta) (cycles : ℕ) : Prop where
  arm : (inp 0).arm = true
  disarm : (inp 0).disarm = false
  windows : (inp 0).windows = windows
  feed : ∀ k s, k < cycles → stim[k]? = some s →
    Drives pretrig s (decide (∃ m ∈ metas, m.trigCycle = some k)) (inp (k + 1))

/-- The core is parked behind its last window with the model's results. -/
structure Golden (c : Core W L T) (windows : BitVec 8) (buf : List (Option (BitVec W)))
    (metas : List WinMeta) : Prop where
  done : c.st = .done
  windowsDone : c.windowsDone = windows
  parked : ¬ c.windowsDone < c.windowsQ
  size : buf.length = depth L
  buf : ∀ a x, buf[a]? = some (some x) → bufAt c a = x
  count : metas.length = windows.toNat
  entries : ∀ j m, metas[j]? = some m → Entry c j m
  last : ∃ m, metas.getLast? = some m ∧ m.trigIndex = some c.trigIndex.toNat ∧ m.wrapped = c.wrapped

section
variable {pretrig : BitVec L} {windows : BitVec 8} {c : Core W L T} {v : WinState (BitVec W)}

theorem Follows.not_returns (h : Follows pretrig windows c v) (hr : v.returns windows.toNat = false) :
    ¬ (c.st = .done ∧ ¬ c.windowsDone < c.windowsQ) := by
  rintro ⟨hst, hlt⟩
  have hdone := h.windowsDone
  have hs : v.st = .done := by
    rw [h.st] at hst
    cases hv : v.st <;> rw [hv] at hst <;> first | rfl | cases hst
  rw [h.count, if_pos hs] at hdone
  rw [h.target, BitVec.lt_def, hdone] at hlt
  simp [WinState.returns, hs, hlt] at hr

theorem Follows.returns (h : Follows pretrig windows c v) (hr : v.returns windows.toNat = true) :
    Golden c windows v.buf v.metas := by
  simp only [WinState.returns, Bool.and_eq_true, beq_iff_eq, Bool.not_eq_true', decide_eq_false_iff_not] at hr
  obtain ⟨hs, hn⟩ := hr
  have hdone := h.windowsDone
  have hlt := h.win_lt
  have hcount := h.count
  rw [if_pos hs] at hcount
  have hall : c.windowsDone = windows := BitVec.eq_of_toNat_eq (by omega)
  exact {
    done := by rw [h.st, hs]; rfl
    windowsDone := hall
    parked := by rw [h.target, hall]; exact BitVec.lt_irrefl windows
    size := h.size
    buf := h.buf
    count := by omega
    entries := h.entries
    last := h.last hs }

/-- From cycle `k` of the loop on the core parks in the cycle in which the loop returns. -/
theorem Follows.loop (hL : 1 ≤ L) (hL' : L ≤ 16) {inp : ℕ → CoreIn W L} {c₀ : Core W L T} {stim : List (BitVec W)}
    {trigRel : List ℤ} {k : ℕ} {out : List (Option (BitVec W)) × List WinMeta × ℕ}
    (h : Follows pretrig windows (trace Core.step c₀ inp (k + 1)) v)
    (hloop : WinState.loop (1 <<< L) (sliceSize L windows - 1) (pretrigOf L pretrig windows) windows.toNat
      trigRel k v stim = some out)
    (hfresh : ∀ t, k ≤ t → ¬ v.Marks t)
    (hfeed : ∀ j s, k + j < out.2.2 → stim[j]? = some s →
      Drives pretrig s (decide (∃ m ∈ out.2.1, m.trigCycle = some (k + j))) (inp (k + j + 1))) :
    Golden (trace Core.step c₀ inp out.2.2) windows out.1 out.2.1 ∧
      ∀ n, k < n → n < out.2.2 → ¬ ((trace Core.step c₀ inp n).st = .done ∧
        ¬ (trace Core.step c₀ inp n).windowsDone < (trace Core.step c₀ inp n).windowsQ) := by
  induction stim generalizing k v with
  | nil => cases hloop
  | cons s stim ih =>
    have htrig := WinState.loop_trig hloop (hfresh k le_rfl)
    obtain ⟨acc, hacc, ⟨hr, -, rfl⟩ | ⟨hr, hnext⟩⟩ := WinState.loop_cons hloop
    · exact ⟨h.returns hr, fun n h₁ (h₂ : n < k + 1) => absurd h₂ (by omega)⟩
    · have hdrive := hfeed 0 s (WinState.loop_cycles hloop) rfl
      have harmed : acc = true → v.st = .armed := fun ha =>
        WinState.trig_armed (hacc.trans (congrArg some ha))
      rw [hacc, Option.some.injEq] at htrig
      simp only [Nat.add_zero, htrig, Bool.decide_eq_true] at hdrive
      have hstep := h.step (k := k) hL hL' hdrive harmed hr
      obtain ⟨hgolden, hbefore⟩ := ih hstep hnext
        (fun t ht hm => by
          rcases (WinState.cycle_marks harmed t).mp hm with hm | ⟨rfl, -⟩
          · exact hfresh t (by omega) hm
          · omega)
        (fun j x hj hx => by
          rw [show k + 1 + j = k + (j + 1) by omega] at hj ⊢
          exact hfeed (j + 1) x hj hx)
      refine ⟨hgolden, fun n h₁ h₂ => ?_⟩
      rcases Nat.eq_or_lt_of_le (Nat.succ_le_of_lt h₁) with rfl | hlt
      · exact h.not_returns hr
      · exact hbefore n hlt h₂

end

/-- Armed from `IDLE` and driven as the golden model says, the core parks in the cycle the
model returns in, with the model's buffer and metadata. -/
theorem golden_capture (hL : 1 ≤ L) (hL' : L ≤ 16) (c₀ : Core W L T) (inp : ℕ → CoreIn W L)
    (pretrig : BitVec L) (windows : BitVec 8) (stim : List (BitVec W)) (trigRel : List ℤ)
    (buf : List (Option (BitVec W))) (metas : List WinMeta) (cycles : ℕ) (h1 : 1 ≤ windows.toNat)
    (hmodel : windowsModel stim L pretrig.toNat windows.toNat trigRel = some (buf, metas, cycles))
    (hidle : c₀.st = .idle) (hinp : Replays inp pretrig windows stim metas cycles) :
    Golden (trace step c₀ inp cycles) windows buf metas ∧
      ∀ n < cycles, ¬ ((trace step c₀ inp n).st = .done ∧
        ¬ (trace step c₀ inp n).windowsDone < (trace step c₀ inp n).windowsQ) := by
  rw [windowsModel, sliceMask_golden hL hL', pretrig_golden hL hL'] at hmodel
  have hstart : Follows pretrig windows (trace step c₀ inp 1) (WinState.start (1 <<< L)) :=
    Follows.start hL hL' hidle hinp.arm hinp.disarm hinp.windows h1
  obtain ⟨hgolden, hbefore⟩ := hstart.loop hL hL' hmodel
    (fun t _ hm => by simp [WinState.Marks, WinState.start] at hm)
    (fun j s hj hs => by
      rw [Nat.zero_add] at hj ⊢
      exact hinp.feed j s hj hs)
  refine ⟨hgolden, fun n hn => ?_⟩
  rcases Nat.eq_zero_or_pos n with rfl | hpos
  · rw [trace_zero, hidle]
    simp
  · exact hbefore n hpos hn

/-- Two windows of 128 words with a history of 127 each, on counting samples. -/
def goldenStim : List (BitVec 8) := (List.range 262).map (BitVec.ofNat 8)

/-- The second trigger comes one sample later and wraps around its slice. -/
def goldenMetas : List WinMeta := [⟨some 127, some 127, true⟩, ⟨some 258, some 128, true⟩]

def goldenIn (n : ℕ) : CoreIn 8 8 where
  sampleData := BitVec.ofNat 8 (n - 1)
  sampleValid := true
  trig := decide (n = 128 ∨ n = 259)
  arm := decide (n = 0)
  disarm := false
  pretrig := 255
  windows := 2
  rdAddr := 0
  winRdAddr := 0

theorem goldenStim_model :
    (windowsModel goldenStim 8 255 2 [0, 1]).map Prod.snd = some (goldenMetas, 261) := by
  rw [windowsModel, Sim.weffLog2Of_eq, show min (Nat.clog 2 2) (8 - 1) = 1 by decide]
  decide +kernel

theorem goldenIn_replays : Replays goldenIn 255 2 goldenStim goldenMetas 261 where
  arm := rfl
  disarm := rfl
  windows := rfl
  feed := fun k s _ hs => by
    rw [goldenStim, List.getElem?_map, Option.map_eq_some_iff] at hs
    obtain ⟨x, hx, rfl⟩ := hs
    obtain ⟨hlt, rfl⟩ := List.getElem?_eq_some_iff.mp hx
    refine ⟨rfl, rfl, rfl, by simp [goldenIn], ?_, rfl⟩
    simp [goldenIn, goldenMetas, @eq_comm ℕ _ k]

theorem goldenIn_captured : ∃ buf, windowsModel goldenStim 8 255 2 [0, 1] = some (buf, goldenMetas, 261) ∧
    Golden (trace step (blank 8 8 48) goldenIn 261) 2 buf goldenMetas := by
  obtain ⟨⟨buf, rest⟩, hmodel, hrest⟩ := Option.map_eq_some_iff.mp goldenStim_model
  obtain rfl : rest = (goldenMetas, 261) := hrest
  exact ⟨buf, hmodel, (golden_capture (by decide) (by decide) (blank 8 8 48) goldenIn 255 2 goldenStim [0, 1]
    buf goldenMetas 261 (by decide) hmodel rfl goldenIn_replays).1⟩

end FpgaScope.Core
