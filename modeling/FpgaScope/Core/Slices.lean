import FpgaScope.Core.Completed

/-! Finished slices. Between two accepted arms the windows fill slice after slice;
a window writes only inside its own slice, and what a slice and its metadata entry
hold when the window completes is what they hold until the next accepted arm,
through later windows, an abort and a parked `DONE`. -/

namespace FpgaScope.Core

open Clocked

variable {W L T : ℕ}

/-- Slice `j` of a buffer that is cut for `windows` windows. -/
def sliceAt (windows : BitVec 8) (c : Core W L T) (j : ℕ) : List (BitVec W) :=
  (List.range (sliceSize L windows)).map fun o => bufAt c (j * sliceSize L windows + o)

/-- The window in flight in cycle `n` accepted its trigger in cycle `u`, when its
sample went to the address latched in `trig_index`. -/
structure TriggeredAt (c₀ : Core W L T) (inp : ℕ → CoreIn W L) (n u : ℕ) : Prop where
  lt : u < n
  accept : trigAccept (run c₀ inp u) (inp u) = true
  after : ∀ v, u < v → v ≤ n → (run c₀ inp v).st = .triggered
  index : (run c₀ inp n).trigIndex = wrAddrW (run c₀ inp u)

/-- Window `j` of the run armed in cycle `a` accepted its trigger in cycle `u` and
completed in cycle `d`, and its slice and metadata are unchanged in cycle `t`. -/
structure Kept (c₀ : Core W L T) (inp : ℕ → CoreIn W L) (a t j u d : ℕ) : Prop where
  after : a < d
  before : d < t
  trigger : TriggeredAt c₀ inp d u
  completes : (run c₀ inp d).st = .triggered ∧ (run c₀ inp (d + 1)).st = .done
  index : (run c₀ inp (d + 1)).winIdx.toNat = j ∧ (run c₀ inp (d + 1)).windowsDone.toNat = j + 1
  samples : sliceAt (inp a).windows (run c₀ inp t) j = slice (run c₀ inp (d + 1))
  entry : (run c₀ inp t).uWinMeta.mem (BitVec.ofNat 8 j) =
    BitVec.cons (run c₀ inp (d + 1)).wrapped (wrAddrW (run c₀ inp u))

/-- The windows of a run that completed before cycle `t`. -/
def AllKept (c₀ : Core W L T) (inp : ℕ → CoreIn W L) (a t : ℕ) : Prop :=
  ∀ j < (run c₀ inp t).windowsDone.toNat, ∃ u d, Kept c₀ inp a t j u d

/-- The window index never runs ahead of the completed windows. -/
structure Counted (c : Core W L T) : Prop where
  idx_lt : c.winIdx.toNat < c.windowsQ.toNat
  done_le : c.windowsDone.toNat ≤ c.winIdx.toNat + 1

theorem Counted.startRun {c : Core W L T} {i : CoreIn W L} (h : 0 < i.windows.toNat) :
    Counted (startRun c i) := ⟨h, by simp [Core.startRun]⟩

section
variable (hL : 1 ≤ L) (hL' : L ≤ 16)
include hL hL'

omit hL hL' in
theorem Counted.step {c : Core W L T} (h : Counted c) (hsh : Shape c) (i : CoreIn W L)
    (hi : armAccept c i = false) : Counted (Core.step c i) := by
  have hq := c.windowsQ.isLt
  have hidx := h.idx_lt
  have hm := step_move c i
  generalize Core.step c i = c' at hm
  cases hm with
  | start ha => rw [ha] at hi; cases hi
  | abort | rest | fill | backlog | circulate | trigger | post | park => exact ⟨h.idx_lt, h.done_le⟩
  | complete _ hs _ =>
    refine ⟨h.idx_lt, ?_⟩
    change (c.windowsDone + 1).toNat ≤ c.winIdx.toNat + 1
    rw [hsh.count (Or.inr (Or.inr hs)), BitVec.toNat_add]
    exact Nat.mod_le _ _
  | rearm _ hs _ hlt =>
    have hdone := hsh.count_done hs
    have hnext : (c.winIdx + 1).toNat = c.winIdx.toNat + 1 := by
      rw [BitVec.toNat_add]
      exact Nat.mod_eq_of_lt (by change c.winIdx.toNat + 1 < 256; omega)
    rw [hdone, BitVec.lt_def, hnext] at hlt
    refine ⟨?_, ?_⟩
    · change (c.winIdx + 1).toNat < c.windowsQ.toNat
      rwa [hnext]
    · change c.windowsDone.toNat ≤ (c.winIdx + 1).toNat + 1
      rw [hdone, hnext]
      omega

/-- In a run with an accepted window count the base register is the start of the
current slice. -/
theorem base_eq {c : Core W L T} (hsh : Shape c) (hc : Counted c)
    (hw : c.windowsQ.toNat ≤ depth L / 2) :
    c.base.toNat = c.winIdx.toNat * sliceSize L c.windowsQ ∧
      (c.winIdx.toNat + 1) * sliceSize L c.windowsQ ≤ depth L := by
  have hfit := window_fits hw hL hL' hc.idx_lt
  have hpos := sliceSize_pos hL hL' c.windowsQ
  refine ⟨?_, hfit⟩
  rw [hsh.base]
  exact Nat.mod_eq_of_lt (by rw [Nat.add_one_mul] at hfit; omega)

/-- A write of the current window stays inside its slice. -/
theorem write_in_slice {c : Core W L T} (hsh : Shape c) (hc : Counted c)
    (hw : c.windowsQ.toNat ≤ depth L / 2) :
    c.winIdx.toNat * sliceSize L c.windowsQ ≤ (wrAddrW c).toNat ∧
      (wrAddrW c).toNat < (c.winIdx.toNat + 1) * sliceSize L c.windowsQ := by
  have hlt := hsh.offset_lt
  rw [wrAddrW_toNat hL hL' hsh, (base_eq hL hL' hsh hc hw).1, Nat.add_one_mul]
  omega

omit hL hL' in
/-- Every move writes the memories as the datapath does. -/
theorem step_memories (c : Core W L T) (i : CoreIn W L) :
    (step c i).uBuf = (datapath c i).uBuf ∧ (step c i).uWinMeta = (datapath c i).uWinMeta := by
  have hm := step_move c i
  generalize step c i = c' at hm
  cases hm <;> exact ⟨rfl, rfl⟩

omit hL hL' in
/-- A capture write puts the sample of the cycle at the write address. -/
theorem stored_word {c : Core W L T} {i : CoreIn W L} (h : captureWr c i = true) :
    (step c i).uBuf.mem (wrAddrW c) = i.sampleData := by
  rw [(step_memories c i).1]
  change (if captureWr c i then Function.update c.uBuf.mem (wrAddrW c) _ else _) _ = _
  rw [if_pos h, Function.update_self]

omit hL hL' in
/-- A buffer write belongs to a window that is not counted as done. -/
theorem windowsDone_of_captureWr {c : Core W L T} (hsh : Shape c) {i : CoreIn W L}
    (h : captureWr c i = true) : c.windowsDone = c.winIdx := by
  cases hs : c.st with
  | idle => rw [captureWr_quiet i (Or.inl hs)] at h; cases h
  | done => rw [captureWr_quiet i (Or.inr hs)] at h; cases h
  | filling => exact hsh.count (Or.inl hs)
  | armed => exact hsh.count (Or.inr (Or.inl hs))
  | triggered => exact hsh.count (Or.inr (Or.inr hs))

/-- A cycle leaves the slices of the completed windows alone. -/
theorem sliceAt_step {c : Core W L T} (hsh : Shape c) (hc : Counted c)
    (hw : c.windowsQ.toNat ≤ depth L / 2) (i : CoreIn W L) {j : ℕ}
    (hj : j < c.windowsDone.toNat) :
    sliceAt c.windowsQ (step c i) j = sliceAt c.windowsQ c j := by
  have hbase := base_eq hL hL' hsh hc hw
  have hle : (j + 1) * sliceSize L c.windowsQ ≤ (c.winIdx.toNat + 1) * sliceSize L c.windowsQ :=
    Nat.mul_le_mul_right _ (by have := hc.done_le; omega)
  unfold sliceAt
  apply List.map_congr_left
  intro o ho
  have ho' : o < sliceSize L c.windowsQ := by simpa using ho
  have hlt : j * sliceSize L c.windowsQ + o < depth L := by
    rw [Nat.add_one_mul] at hle
    omega
  rw [bufAt, (step_memories c i).1, ← bufAt, bufAt_datapath hL hL' hsh i hlt, if_neg]
  rintro ⟨hwr, haddr⟩
  have hidx := windowsDone_of_captureWr hsh hwr
  rw [hidx] at hj
  have hsep : (j + 1) * sliceSize L c.windowsQ ≤ c.winIdx.toNat * sliceSize L c.windowsQ :=
    Nat.mul_le_mul_right _ hj
  rw [hbase.1] at haddr
  rw [Nat.add_one_mul] at hsep
  omega

omit hL hL' in
/-- A cycle leaves the metadata of the completed windows alone. -/
theorem entry_step {c : Core W L T} (hsh : Shape c) (i : CoreIn W L) {j : ℕ}
    (hj : j < c.windowsDone.toNat) :
    (step c i).uWinMeta.mem (BitVec.ofNat 8 j) = c.uWinMeta.mem (BitVec.ofNat 8 j) := by
  rw [(step_memories c i).2]
  change (if windowDoneNow c i && !i.disarm then Function.update c.uWinMeta.mem c.winIdx _
    else c.uWinMeta.mem) _ = _
  split
  · rename_i h
    simp only [windowDoneNow, Bool.and_eq_true, beq_iff_eq] at h
    rw [hsh.count (Or.inr (Or.inr h.1.1))] at hj
    apply Function.update_of_ne
    intro he
    have := congrArg BitVec.toNat he
    rw [BitVec.toNat_ofNat, Nat.mod_eq_of_lt (by have := c.winIdx.isLt; omega)] at this
    omega
  · rfl

omit hL hL' in
/-- A trigger was accepted before every `TRIGGERED` cycle. -/
theorem exists_triggeredAt (c₀ : Core W L T) (inp : ℕ → CoreIn W L) (n : ℕ)
    (hs : (run c₀ inp n).st = .triggered) : ∃ u, TriggeredAt c₀ inp n u := by
  induction n with
  | zero => cases hs
  | succ n ih =>
    have hm := step_move (run c₀ inp n) (inp n)
    rw [← run_succ] at hm
    generalize hc : run c₀ inp (n + 1) = c' at hm
    rw [hc] at hs
    cases hm with
    | abort | start | backlog | complete | rearm => cases hs
    | rest _ hs' | fill _ hs' | circulate _ hs' | park _ hs' => simp [hs'] at hs
    | trigger _ _ hacc =>
      refine ⟨n, Nat.lt_succ_self n, hacc, fun v h₁ h₂ => ?_, ?_⟩
      · rw [show v = n + 1 by omega, hc]
      · rw [hc]
        exact trigIndex_accepted hacc
    | post _ hs' _ =>
      obtain ⟨u, hu⟩ := ih hs'
      refine ⟨u, Nat.lt_succ_of_lt hu.lt, hu.accept, ?_, ?_⟩
      · intro v h₁ h₂
        rcases Nat.lt_or_ge n v with hv | hv
        · rw [show v = n + 1 by omega, hc]
          exact hs
        · exact hu.after v h₁ hv
      · rw [hc, ← hu.index]
        exact trigIndex_kept _ (by simp [hs'])

/-! ### The windows of a run -/

variable {c₀ : Core W L T} {inp : ℕ → CoreIn W L} {a t : ℕ}

omit hL hL' in
theorem LastArm.shrink (h : LastArm c₀ inp a (t + 1)) (hlt : a < t) :
    LastArm c₀ inp a t ∧ armAccept (run c₀ inp t) (inp t) = false :=
  ⟨⟨hlt, h.accept, fun v h₁ h₂ => h.quiet v h₁ (Nat.lt_succ_of_lt h₂)⟩,
    h.quiet t hlt (Nat.lt_succ_self t)⟩

omit hL hL' in
/-- The state right after an accepted arm. -/
theorem startRun_of_armAccept {c : Core W L T} {i : CoreIn W L} (h : armAccept c i = true) :
    step c i = startRun (datapath c i) i := by
  simp only [armAccept, Bool.and_eq_true, Bool.or_eq_true, beq_iff_eq, Bool.not_eq_true'] at h
  obtain ⟨⟨ha, hd⟩, hs⟩ := h
  rw [step, control, hd, if_neg (by simp)]
  rcases hs with hs | hs <;> simp [hs, ha]

theorem counted_run (ha : LastArm c₀ inp a t) (h1 : 0 < (inp a).windows.toNat) :
    Counted (run c₀ inp t) := by
  have hlt := ha.lt
  induction t, hlt using Nat.le_induction with
  | base =>
    rw [run_succ, startRun_of_armAccept ha.accept]
    exact Counted.startRun h1
  | succ t ht ih =>
    obtain ⟨ha', hi⟩ := ha.shrink ht
    exact (ih ha').step (shape_run hL hL' c₀ inp t) _ hi

omit hL hL' in
/-- A cycle that completes no window and is no accepted arm. -/
theorem windowsDone_step {c : Core W L T} {i : CoreIn W L} (hi : armAccept c i = false)
    (hd : ¬ (c.st = .triggered ∧ (step c i).st = .done)) :
    (step c i).windowsDone = c.windowsDone := by
  have hm := step_move c i
  generalize step c i = c' at hm hd
  cases hm with
  | start ha => rw [ha] at hi; cases hi
  | complete _ hs _ => exact absurd ⟨hs, rfl⟩ hd
  | _ => rfl

theorem Kept.extend {j u d : ℕ} (h : Kept c₀ inp a t j u d) (ha : LastArm c₀ inp a t)
    (h1 : 0 < (inp a).windows.toNat) (h2 : (inp a).windows.toNat ≤ depth L / 2)
    (hj : j < (run c₀ inp t).windowsDone.toNat) : Kept c₀ inp a (t + 1) j u d := by
  have hsh := shape_run hL hL' c₀ inp t
  have hq : (run c₀ inp t).windowsQ = (inp a).windows := ha.windowsQ
  refine ⟨h.after, Nat.lt_succ_of_lt h.before, h.trigger, h.completes, h.index, ?_, ?_⟩
  · rw [run_succ, ← h.samples, ← hq]
    exact sliceAt_step hL hL' hsh (counted_run hL hL' ha h1) (by rw [hq]; exact h2) _ hj
  · rw [run_succ, ← h.entry]
    exact entry_step hsh _ hj

/-- A window that completes right now. -/
theorem Kept.complete (ha : LastArm c₀ inp a t) (h1 : 0 < (inp a).windows.toNat)
    (h2 : (inp a).windows.toNat ≤ depth L / 2) (hs : (run c₀ inp t).st = .triggered)
    (hd : (run c₀ inp (t + 1)).st = .done) :
    ∃ u, Kept c₀ inp a (t + 1) (run c₀ inp t).windowsDone.toNat u t := by
  obtain ⟨u, hu⟩ := exists_triggeredAt c₀ inp t hs
  obtain ⟨hdis, h0, hc⟩ := complete_move hs hd
  have hsh := shape_run hL hL' c₀ inp t
  have hcnt := counted_run hL hL' ha h1
  have hidx := hsh.count (Or.inr (Or.inr hs))
  have hq : (run c₀ inp t).windowsQ = (inp a).windows := ha.windowsQ
  have hbase := base_eq hL hL' hsh hcnt (by rw [hq]; exact h2)
  have hlt := hcnt.idx_lt
  have hmax := (run c₀ inp t).windowsQ.isLt
  refine ⟨u, ha.lt, Nat.lt_succ_self t, hu, ⟨hs, hd⟩, ⟨?_, ?_⟩, ?_, ?_⟩
  · rw [hc, hidx]
    rfl
  · rw [hc]
    change ((run c₀ inp t).windowsDone + 1).toNat = _
    rw [BitVec.toNat_add]
    exact Nat.mod_eq_of_lt (by rw [hidx]; change _ + 1 < 256; omega)
  · rw [sliceAt, slice, hc, hidx, ← hq, ← hbase.1]
    rfl
  · have hwr : (run c₀ inp (t + 1)).wrapped = wrappedNext (run c₀ inp t) (inp t) := by
      rw [hc]
      exact wrapped_datapath _ _
    have hnow : (windowDoneNow (run c₀ inp t) (inp t) && !(inp t).disarm) = true := by
      simp [windowDoneNow, hs, h0, hdis]
    rw [hwr, ← hu.index, hc, hidx]
    change (if windowDoneNow (run c₀ inp t) (inp t) && !(inp t).disarm then
      Function.update (run c₀ inp t).uWinMeta.mem (run c₀ inp t).winIdx _ else _) _ = _
    rw [if_pos hnow, BitVec.ofNat_toNat, BitVec.setWidth_eq, Function.update_self]

/-- Every window completed since the last accepted arm is kept. -/
theorem allKept_run (ha : LastArm c₀ inp a t) (h1 : 0 < (inp a).windows.toNat)
    (h2 : (inp a).windows.toNat ≤ depth L / 2) : AllKept c₀ inp a t := by
  have hlt := ha.lt
  induction t, hlt using Nat.le_induction with
  | base =>
    intro j hj
    rw [run_succ, startRun_of_armAccept ha.accept] at hj
    exact absurd hj (Nat.not_lt_zero j)
  | succ t ht ih =>
    obtain ⟨ha', hi⟩ := ha.shrink ht
    intro j hj
    by_cases hnow : (run c₀ inp t).st = .triggered ∧ (run c₀ inp (t + 1)).st = .done
    · obtain ⟨u, hk⟩ := Kept.complete hL hL' ha' h1 h2 hnow.1 hnow.2
      rw [hk.index.2] at hj
      rcases Nat.lt_succ_iff_lt_or_eq.mp hj with hj' | rfl
      · obtain ⟨u', d, hk'⟩ := ih ha' j hj'
        exact ⟨u', d, hk'.extend hL hL' ha' h1 h2 hj'⟩
      · exact ⟨u, t, hk⟩
    · rw [run_succ, windowsDone_step hi (by rw [← run_succ]; exact hnow)] at hj
      obtain ⟨u, d, hk⟩ := ih ha' j hj
      exact ⟨u, d, hk.extend hL hL' ha' h1 h2 hj⟩

/-- From an accepted arm to the next one: finished slices and their metadata keep
what they held at completion, and every buffer write lands in the slice of the
window in flight. -/
theorem finished_slices_kept (c₀ : Core W L T) (inp : ℕ → CoreIn W L) (a t : ℕ)
    (ha : LastArm c₀ inp a t) (h1 : 1 ≤ (inp a).windows.toNat)
    (h2 : (inp a).windows.toNat ≤ depth L / 2) :
    (∀ j < (run c₀ inp t).windowsDone.toNat, ∃ u d, Kept c₀ inp a t j u d ∧
      (PretrigHeld c₀ inp → (run c₀ inp (d + 1)).wrapped = true)) ∧
    (captureWr (run c₀ inp t) (inp t) = true →
      (run c₀ inp t).st ≠ .idle ∧ (run c₀ inp t).st ≠ .done ∧
      (run c₀ inp t).windowsDone = (run c₀ inp t).winIdx ∧
      (run c₀ inp t).winIdx.toNat * sliceSize L (inp a).windows ≤ (wrAddrW (run c₀ inp t)).toNat ∧
      (wrAddrW (run c₀ inp t)).toNat <
        ((run c₀ inp t).winIdx.toNat + 1) * sliceSize L (inp a).windows) := by
  have hsh := shape_run hL hL' c₀ inp t
  have hq : (run c₀ inp t).windowsQ = (inp a).windows := ha.windowsQ
  refine ⟨fun j hj => ?_, fun hcap => ?_⟩
  · obtain ⟨u, d, hk⟩ := allKept_run hL hL' ha h1 h2 j hj
    refine ⟨u, d, hk, fun hp => ?_⟩
    obtain ⟨_, _, _, hw⟩ := window_complete hL hL' hp hk.completes.1 hk.completes.2
    exact hw.wrapped
  · have hin := write_in_slice hL hL' hsh (counted_run hL hL' ha h1) (by rw [hq]; exact h2)
    rw [hq] at hin
    refine ⟨fun hs => ?_, fun hs => ?_, windowsDone_of_captureWr hsh hcap, hin⟩
    · rw [captureWr_quiet _ (Or.inl hs)] at hcap
      cases hcap
    · rw [captureWr_quiet _ (Or.inr hs)] at hcap
      cases hcap

end

/-- Two windows of two samples each are done in cycle 9 of the run. -/
theorem finished_slices_kept_counting :
    (run (blank 8 8 48) countingIn 9).windowsDone.toNat = 2 ∧
      ∀ j < 2, ∃ u d, Kept (blank 8 8 48) countingIn 0 9 j u d ∧
        (run (blank 8 8 48) countingIn (d + 1)).wrapped = true := by
  have hquiet : ∀ v < 9, 0 < v →
      armAccept (run (blank 8 8 48) countingIn v) (countingIn v) = false := by decide
  have h := finished_slices_kept (by decide) (by decide) (blank 8 8 48) countingIn 0 9
    ⟨by decide, by decide, fun v h₁ h₂ => hquiet v h₂ h₁⟩ (by decide) (by decide)
  have hdone : (run (blank 8 8 48) countingIn 9).windowsDone.toNat = 2 := by decide
  refine ⟨hdone, fun j hj => ?_⟩
  obtain ⟨u, d, hk, hw⟩ := h.1 j (by rw [hdone]; exact hj)
  exact ⟨u, d, hk, hw fun _ _ _ => rfl⟩

/-- 128 windows, one sample in cycle 2 with the trigger, and `pretrig` moved in that cycle. -/
def movingIn (n : ℕ) : CoreIn 8 8 where
  sampleData := 0
  sampleValid := decide (n = 2)
  trig := decide (n = 2)
  arm := decide (n = 0)
  disarm := false
  pretrig := if n < 2 then 0 else 255
  windows := 128
  rdAddr := 0
  winRdAddr := 0

/-- Where `pretrig` moves between the arm and the trigger a window can complete with the trigger sample
alone: its metadata entry is `{0, 0}`, and a legal run of 128 windows shows it. -/
theorem moved_pretrig_not_wrapped : LastArm (blank 8 8 48) movingIn 0 4 ∧
    1 ≤ (movingIn 0).windows.toNat ∧ (movingIn 0).windows.toNat ≤ min 255 (depth 8 / 2) ∧
    (run (blank 8 8 48) movingIn 4).windowsDone = 1 ∧
    (run (blank 8 8 48) movingIn 4).uWinMeta.mem 0 = BitVec.cons false 0#8 ∧
    ¬ ∃ trigIndex, (run (blank 8 8 48) movingIn 4).uWinMeta.mem 0 = BitVec.cons true trigIndex := by
  have hquiet : ∀ v < 4, 0 < v →
      armAccept (run (blank 8 8 48) movingIn v) (movingIn v) = false := by decide
  have hentry : (run (blank 8 8 48) movingIn 4).uWinMeta.mem 0 = BitVec.cons false 0#8 := by decide
  refine ⟨⟨by decide, by decide, fun v h₁ h₂ => hquiet v h₂ h₁⟩, by decide, by decide, by decide, hentry, ?_⟩
  rintro ⟨trigIndex, h⟩
  rw [hentry] at h
  have hbit := congrArg BitVec.msb h
  rw [BitVec.msb_cons, BitVec.msb_cons] at hbit
  cases hbit

end FpgaScope.Core
