import Mathlib.Data.Nat.Log
import Mathlib.Tactic

/-! `windows_model` of the simulation reference: the multi-window capture in Python
integers, one pass of the loop for each sample. A run that uses up the stimulus or reads
past the end of `trig_rel` raises and has no result. -/

namespace FpgaScope.Sim

/-! ### `weff_log2_of` -/

/-- The loop: the first `r` with `w <= 1 << r`. -/
def weffLoop (w r : ℕ) : ℕ := if 1 <<< r < w then weffLoop w (r + 1) else r
termination_by w - r
decreasing_by
  have : r < 2 ^ r := Nat.lt_two_pow_self
  rw [Nat.one_shiftLeft] at *
  omega

def weffLog2Of (windows depthLog2 : ℕ) : ℕ := min (weffLoop (max 1 windows) 0) (depthLog2 - 1)

theorem weffLoop_eq {w r : ℕ} (h : r ≤ Nat.clog 2 w) : weffLoop w r = Nat.clog 2 w := by
  induction r using weffLoop.induct w with
  | case1 r hlt ih =>
    rw [weffLoop, if_pos hlt]
    exact ih ((Nat.lt_clog_iff_pow_lt (by norm_num)).mpr (by rwa [Nat.one_shiftLeft] at hlt))
  | case2 r hge =>
    rw [weffLoop, if_neg hge]
    refine le_antisymm h (Nat.clog_le_of_le_pow ?_)
    rw [Nat.one_shiftLeft] at hge
    omega

theorem weffLog2Of_eq (windows depthLog2 : ℕ) :
    weffLog2Of windows depthLog2 = min (Nat.clog 2 windows) (depthLog2 - 1) := by
  rw [weffLog2Of, weffLoop_eq (Nat.zero_le _)]
  rcases Nat.eq_zero_or_pos windows with rfl | h
  · simp
  · rw [max_eq_right h]

/-! ### `windows_model` -/

/-- The values of `st`. -/
inductive WinSt
  | filling | armed | triggered | done
  deriving DecidableEq

/-- The record of one window. -/
structure WinMeta where
  trigCycle : Option ℕ
  trigIndex : Option ℕ
  wrapped : Bool
  deriving DecidableEq

/-- The variables of the loop, over any type of samples. -/
structure WinState (α : Type*) where
  buf : List (Option α)
  st : WinSt
  base : ℕ
  off : ℕ
  fill : ℕ
  post : ℤ
  wrapped : Bool
  win : ℕ
  armedSeen : ℕ
  trigIndex : Option ℕ
  accCycle : Option ℕ
  metas : List WinMeta

namespace WinState

variable {α : Type*}

/-- `trig`. The list is read while `ARMED` only. -/
def trig (trigRel : List ℤ) (v : WinState α) : Option Bool :=
  if v.st = .armed then (trigRel[v.win]?).map fun rel => (v.armedSeen : ℤ) == rel else some false

def wr (v : WinState α) : Bool :=
  v.st == .filling || v.st == .armed || (v.st == .triggered && v.post != 0)

def fillWr (v : WinState α) : Bool := v.wr && v.st == .filling

def postWr (v : WinState α) : Bool := v.wr && v.st == .triggered

def fillNext (v : WinState α) : ℕ := v.fill + if v.fillWr then 1 else 0

def postNext (v : WinState α) : ℤ := v.post - if v.postWr then 1 else 0

section
variable (depth sliceMask pEff windows k : ℕ) (acc : Bool)

/-- The assignments in front of the state update, for sample `s` of cycle `k`. -/
def datapath (s : α) (v : WinState α) : WinState α :=
  { v with
    armedSeen := if v.st = .armed then v.armedSeen + 1 else v.armedSeen
    buf := if v.wr then v.buf.set (v.base ||| v.off) (some s) else v.buf
    wrapped := if v.wr then (if v.off = sliceMask then true else v.wrapped) else v.wrapped
    trigIndex := if acc then some (v.base ||| v.off) else v.trigIndex
    accCycle := if acc then some k else v.accCycle
    post := if acc then (sliceMask : ℤ) - pEff else v.postNext
    off := if v.wr then (v.off + 1) &&& sliceMask else v.off
    fill := v.fillNext }

/-- The next window. -/
def nextSlice (v : WinState α) : WinState α :=
  { v with
    base := (v.base + sliceMask + 1) &&& (depth - 1), off := 0, fill := 0, wrapped := false
    armedSeen := 0, st := .filling }

/-- The state update, from the state `v` of the cycle on what the assignments made of it. -/
def control (v d : WinState α) : WinState α :=
  match v.st with
  | .filling => if v.fillNext ≥ pEff then { d with st := .armed } else d
  | .armed => if acc then { d with st := .triggered } else d
  | .triggered =>
    if v.postNext = 0 ∧ acc = false then
      { d with
        metas := d.metas ++ [⟨d.accCycle, d.trigIndex, d.wrapped⟩]
        st := .done }
    else d
  | .done =>
    if v.win + 1 < windows then nextSlice depth sliceMask { d with win := v.win + 1 }
    else { d with win := v.win + 1 }

/-- One pass of the loop. -/
def cycle (s : α) (v : WinState α) : WinState α :=
  control depth sliceMask pEff windows acc v (datapath sliceMask pEff k acc s v)

end

/-- The loop returns in the `DONE` cycle of the last window. -/
def returns (windows : ℕ) (v : WinState α) : Bool := v.st == .done && !(v.win + 1 < windows : Bool)

/-- The variables before the loop. -/
def start (depth : ℕ) : WinState α where
  buf := List.replicate depth none
  st := .filling
  base := 0
  off := 0
  fill := 0
  post := 0
  wrapped := false
  win := 0
  armedSeen := 0
  trigIndex := none
  accCycle := none
  metas := []

/-- The loop from cycle `k` on: `buf`, `meta` and the cycles used. -/
def loop (depth sliceMask pEff windows : ℕ) (trigRel : List ℤ) (k : ℕ) (v : WinState α) :
    List α → Option (List (Option α) × List WinMeta × ℕ)
  | [] => none
  | s :: stim =>
    (v.trig trigRel).bind fun acc =>
      let v' := cycle depth sliceMask pEff windows k acc s v
      if v.returns windows then some (v'.buf, v'.metas, k + 1)
      else loop depth sliceMask pEff windows trigRel (k + 1) v' stim

end WinState

def windowsModel {α : Type*} (stim : List α) (depthLog2 pretrig windows : ℕ) (trigRel : List ℤ) :
    Option (List (Option α) × List WinMeta × ℕ) :=
  WinState.loop (1 <<< depthLog2) (((1 <<< depthLog2) - 1) >>> weffLog2Of windows depthLog2)
    (pretrig >>> weffLog2Of windows depthLog2) windows trigRel 0 (WinState.start (1 <<< depthLog2)) stim

/-! ### The trigger cycles -/

namespace WinState

variable {α : Type*} {depth sliceMask pEff windows k : ℕ} {trigRel : List ℤ} {acc : Bool} {s : α}
  {v : WinState α}

/-- The state update leaves the buffer and the trigger index to the assignments. -/
theorem control_keeps (d : WinState α) : (control depth sliceMask pEff windows acc v d).buf = d.buf ∧
    (control depth sliceMask pEff windows acc v d).trigIndex = d.trigIndex := by
  unfold control
  split <;> split <;> exact ⟨rfl, rfl⟩

theorem trig_armed (h : v.trig trigRel = some true) : v.st = .armed := by
  unfold trig at h
  split at h
  · assumption
  · cases h

/-- Cycle `t` is recorded as a trigger, or will be with the window in flight. -/
def Marks (v : WinState α) (t : ℕ) : Prop :=
  (∃ m ∈ v.metas, m.trigCycle = some t) ∨ (v.st = .triggered ∧ v.accCycle = some t)

theorem cycle_marks (h : acc = true → v.st = .armed) (t : ℕ) :
    (cycle depth sliceMask pEff windows k acc s v).Marks t ↔ v.Marks t ∨ (t = k ∧ acc = true) := by
  have hacc : v.st ≠ .armed → acc = false := fun hne => by
    cases acc with
    | false => rfl
    | true => exact absurd (h rfl) hne
  unfold cycle control
  cases hs : v.st with
  | filling =>
    rw [hacc (by simp [hs])]
    by_cases hn : v.fillNext ≥ pEff <;> simp [Marks, datapath, hs, hn]
  | armed =>
    cases acc with
    | false => simp [Marks, datapath, hs]
    | true => simp [Marks, datapath, hs, @eq_comm _ k t]
  | triggered =>
    rw [hacc (by simp [hs])]
    by_cases hn : v.postNext = 0
    · simp [Marks, datapath, hs, hn, or_and_right, exists_or]
    · simp [Marks, datapath, hs, hn]
  | done =>
    rw [hacc (by simp [hs])]
    by_cases hn : v.win + 1 < windows <;> simp [Marks, datapath, nextSlice, hs, hn]

/-- Where the loop returns, the trigger cycles on record are the marked ones. -/
theorem returns_marks (h : v.returns windows = true) (t : ℕ) :
    (∃ m ∈ v.metas, m.trigCycle = some t) ↔ v.Marks t := by
  have hs : v.st = .done := by
    simp only [returns, Bool.and_eq_true, beq_iff_eq] at h
    exact h.1
  simp [Marks, hs]

theorem returns_metas (h : v.returns windows = true) :
    (cycle depth sliceMask pEff windows k acc s v).metas = v.metas ∧
      (cycle depth sliceMask pEff windows k acc s v).buf = v.buf := by
  have hs : v.st = .done := by
    simp only [returns, Bool.and_eq_true, beq_iff_eq] at h
    exact h.1
  have hn : ¬ v.win + 1 < windows := by simpa [returns, hs] using h
  simp [cycle, control, datapath, wr, hs, hn]

variable {stim : List α} {out : List (Option α) × List WinMeta × ℕ}

/-- What a returning loop has done in its first cycle. -/
theorem loop_cons (h : loop depth sliceMask pEff windows trigRel k v (s :: stim) = some out) :
    ∃ acc, v.trig trigRel = some acc ∧
      ((v.returns windows = true ∧ acc = false ∧ out = (v.buf, v.metas, k + 1)) ∨
        (v.returns windows = false ∧ loop depth sliceMask pEff windows trigRel (k + 1)
          (cycle depth sliceMask pEff windows k acc s v) stim = some out)) := by
  rw [loop] at h
  obtain ⟨acc, htrig, h⟩ := Option.bind_eq_some_iff.mp h
  refine ⟨acc, htrig, ?_⟩
  cases hr : v.returns windows with
  | false =>
    rw [hr] at h
    exact Or.inr ⟨rfl, h⟩
  | true =>
    have hacc : acc = false := by
      cases acc with
      | false => rfl
      | true => simp [returns, trig_armed htrig] at hr
    rw [hr, if_pos rfl, (returns_metas hr).1, (returns_metas hr).2] at h
    exact Or.inl ⟨rfl, hacc, (Option.some.inj h).symm⟩

theorem loop_cycles (h : loop depth sliceMask pEff windows trigRel k v stim = some out) : k < out.2.2 := by
  induction stim generalizing k v with
  | nil => cases h
  | cons s stim ih =>
    obtain ⟨acc, -, ⟨-, -, rfl⟩ | ⟨-, hloop⟩⟩ := loop_cons h
    · exact Nat.lt_succ_self k
    · exact (Nat.lt_succ_self k).trans (ih hloop)

/-- The cycles before `k` that the result records as triggers are the ones marked at `k`. -/
theorem loop_marks (h : loop depth sliceMask pEff windows trigRel k v stim = some out) {t : ℕ} (ht : t < k) :
    (∃ m ∈ out.2.1, m.trigCycle = some t) ↔ v.Marks t := by
  induction stim generalizing k v with
  | nil => cases h
  | cons s stim ih =>
    obtain ⟨acc, htrig, ⟨hr, -, rfl⟩ | ⟨-, hloop⟩⟩ := loop_cons h
    · exact returns_marks hr t
    · rw [ih hloop (by omega), cycle_marks (fun ha => trig_armed (ha ▸ htrig)), or_iff_left]
      rintro ⟨rfl, -⟩
      exact lt_irrefl _ ht

/-- The result records a cycle as a trigger if the loop triggers in it. -/
theorem loop_trig (h : loop depth sliceMask pEff windows trigRel k v (s :: stim) = some out)
    (hk : ¬ v.Marks k) : (∃ m ∈ out.2.1, m.trigCycle = some k) ↔ v.trig trigRel = some true := by
  obtain ⟨acc, htrig, ⟨hr, rfl, rfl⟩ | ⟨-, hloop⟩⟩ := loop_cons h
  · rw [returns_marks hr, htrig]
    simpa using hk
  · rw [loop_marks hloop (Nat.lt_succ_self k), cycle_marks (fun ha => trig_armed (ha ▸ htrig)), htrig]
    simp [hk]

end WinState

end FpgaScope.Sim
