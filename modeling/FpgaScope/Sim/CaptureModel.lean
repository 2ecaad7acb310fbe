import FpgaScope.Host.Reorder
import FpgaScope.Sim.WindowsModel

/-! `capture_model` of the simulation reference: one window over the whole buffer, with the
trigger high in one sample. A failed assertion and a stimulus that runs out leave no result. -/

namespace FpgaScope.Sim

/-- The variables of the loop. -/
structure CapState (α : Type*) where
  buf : List (Option α)
  st : WinSt
  wptr : ℕ
  fill : ℕ
  post : ℤ
  wrapped : Bool
  trigIndex : Option ℕ

namespace CapState

variable {α : Type*}

def wr (u : CapState α) : Bool :=
  u.st == .filling || u.st == .armed || (u.st == .triggered && u.post != 0)

def fillWr (u : CapState α) : Bool := u.wr && u.st == .filling

def postWr (u : CapState α) : Bool := u.wr && u.st == .triggered

def fillNext (u : CapState α) : ℕ := u.fill + if u.fillWr then 1 else 0

def postNext (u : CapState α) : ℤ := u.post - if u.postWr then 1 else 0

def acc (k trigSample : ℕ) (u : CapState α) : Bool := decide (k = trigSample) && u.st == .armed

/-- One pass of the loop. -/
def cycle (depth pretrig : ℕ) (acc : Bool) (sample : α) (u : CapState α) : CapState α where
  buf := if u.wr then u.buf.set u.wptr (some sample) else u.buf
  wrapped := if u.wr then (if u.wptr = depth - 1 then true else u.wrapped) else u.wrapped
  trigIndex := if acc then some u.wptr else u.trigIndex
  post := if acc then (depth : ℤ) - pretrig - 1 else u.postNext
  wptr := if u.wr then (u.wptr + 1) % depth else u.wptr
  fill := u.fillNext
  st :=
    match u.st with
    | .filling => if u.fillNext ≥ pretrig then .armed else .filling
    | .armed => if acc then .triggered else .armed
    | .triggered => if u.postNext = 0 then .done else .triggered
    | .done => .done

/-- The variables before the loop. -/
def start (depth : ℕ) : CapState α where
  buf := List.replicate depth none
  st := .filling
  wptr := 0
  fill := 0
  post := 0
  wrapped := false
  trigIndex := none

/-- The loop from sample `k` on: `buf`, `trig_index`, `wrapped` and the samples consumed. -/
def loop (depth pretrig trigSample : ℕ) : ℕ → CapState α → List α → Option (List (Option α) × Option ℕ × Bool × ℕ)
  | _, _, [] => none
  | k, u, sample :: stim =>
    let u' := cycle depth pretrig (u.acc k trigSample) sample u
    if u'.st = .done then
      -- "completed capture must fill the buffer"
      if u'.buf.all Option.isSome then some (u'.buf, u'.trigIndex, u'.wrapped, k + 1) else none
    else loop depth pretrig trigSample (k + 1) u' stim

end CapState

def captureModel {α : Type*} (stim : List α) (depthLog2 pretrig trigSample : ℕ) :
    Option (List (Option α) × Option ℕ × Bool × ℕ) :=
  if pretrig < 1 <<< depthLog2 ∧ pretrig ≤ trigSample then
    CapState.loop (1 <<< depthLog2) pretrig trigSample 0 (CapState.start (1 <<< depthLog2)) stim
  else none

/-! ### What the loop computes -/

/-- The whole buffer holds the samples from `pretrig` before the trigger on, each at its address. -/
structure Captured {α : Type*} (stim : List α) (depth pretrig trigSample : ℕ) (buf : List (Option α)) : Prop where
  size : buf.length = depth
  kept : ∀ j, trigSample ≤ j + pretrig → j + pretrig < trigSample + depth → buf[j % depth]? = some stim[j]?

/-- The samples consumed; a capture without post samples takes one more to be seen done. -/
def consumed (depth pretrig trigSample : ℕ) : ℕ := trigSample + 1 + max (depth - 1 - pretrig) 1

namespace Captured

variable {α : Type*} {stim : List α} {depth pretrig trigSample : ℕ} {buf buf' : List (Option α)}

/-- Every address has its sample. -/
theorem address (h : pretrig ≤ trigSample) {a : ℕ} (ha : a < depth) :
    ∃ j, trigSample ≤ j + pretrig ∧ j + pretrig < trigSample + depth ∧ j % depth = a := by
  obtain ⟨i, hi, hslot⟩ := Host.slot_surj ha ((trigSample - pretrig : ℕ) : ℤ)
  refine ⟨trigSample - pretrig + i, by omega, by omega, ?_⟩
  rw [← hslot]
  norm_cast

theorem unique (h : Captured stim depth pretrig trigSample buf) (h' : Captured stim depth pretrig trigSample buf')
    (hle : pretrig ≤ trigSample) : buf = buf' := by
  refine List.ext_getElem? fun a => ?_
  by_cases ha : a < depth
  · obtain ⟨j, h₁, h₂, rfl⟩ := address hle ha
    rw [h.kept j h₁ h₂, h'.kept j h₁ h₂]
  · rw [List.getElem?_eq_none (by rw [h.size]; omega), List.getElem?_eq_none (by rw [h'.size]; omega)]

/-- A completed capture has filled the buffer. -/
theorem full (h : Captured stim depth pretrig trigSample buf) (hle : pretrig ≤ trigSample)
    (hstim : trigSample + depth ≤ stim.length + pretrig) : buf.all Option.isSome = true := by
  rw [List.all_eq_true]
  intro x hx
  obtain ⟨a, ha, rfl⟩ := List.mem_iff_getElem.mp hx
  obtain ⟨j, h₁, h₂, hj⟩ := address hle (h.size ▸ ha)
  have hkept := h.kept j h₁ h₂
  rw [hj, List.getElem?_eq_getElem ha, Option.some.injEq] at hkept
  rw [hkept, List.getElem?_eq_getElem (by omega)]
  rfl

end Captured

namespace CapState

variable {α : Type*} {xs : List α} {D P T k : ℕ} {u : CapState α} {x : α}

theorem cycle_done {acc : Bool} (h : (cycle D P acc x u).st = .done) (hu : u.st ≠ .done) : u.st = .triggered := by
  cases hst : u.st with
  | filling =>
    simp only [cycle, hst] at h
    split at h <;> cases h
  | armed =>
    simp only [cycle, hst] at h
    split at h <;> cases h
  | triggered => rfl
  | done => exact absurd hst hu

/-- What `k` samples of `xs` have left in the buffer. -/
structure Stored (xs : List α) (D k : ℕ) (u : CapState α) : Prop where
  wptr : u.wptr = k % D
  size : u.buf.length = D
  kept : ∀ j < k, k ≤ j + D → u.buf[j % D]? = some xs[j]?
  wrapped : u.wrapped = decide (D ≤ k)

theorem mod_ne {j k D : ℕ} (h₁ : j < k) (h₂ : k < j + D) : k % D ≠ j % D := by
  intro h
  have hdvd : D ∣ k - j := (Nat.modEq_iff_dvd' h₁.le).mp h.symm
  have hle := Nat.le_of_dvd (by omega) hdvd
  omega

theorem Stored.start (hD : 0 < D) : Stored xs D 0 (CapState.start D) where
  wptr := (Nat.zero_mod D).symm
  size := List.length_replicate
  kept := fun j hj => absurd hj (Nat.not_lt_zero j)
  wrapped := by simp [CapState.start]; omega

theorem Stored.write (h : Stored xs D k u) (hD : 0 < D) (hx : xs[k]? = some x) (hw : u.wr = true) (acc : Bool) :
    Stored xs D (k + 1) (cycle D P acc x u) := by
  have hmod := Nat.mod_lt k hD
  have hbuf : (cycle D P acc x u).buf = u.buf.set (k % D) (some x) := by simp [cycle, hw, h.wptr]
  refine ⟨?_, ?_, fun j h₁ h₂ => ?_, ?_⟩
  · simp [cycle, hw, h.wptr]
  · rw [hbuf, List.length_set, h.size]
  · rw [hbuf, List.getElem?_set]
    rcases Nat.lt_succ_iff_lt_or_eq.mp h₁ with hlt | rfl
    · rw [if_neg (mod_ne hlt (by omega))]
      exact h.kept j hlt (by omega)
    · rw [if_pos rfl, if_pos (by rw [h.size]; exact hmod), hx]
  · have hwrap : (cycle D P acc x u).wrapped = if k % D = D - 1 then true else decide (D ≤ k) := by
      simp [cycle, hw, h.wptr, h.wrapped]
    rw [hwrap]
    rcases Nat.lt_or_ge k D with hlt | hge
    · rw [Nat.mod_eq_of_lt hlt]
      by_cases he : k = D - 1
      · simp [he]; omega
      · simp [he]; omega
    · simp [hge]; omega

theorem Stored.hold (h : Stored xs D k u) (hw : u.wr = false) (acc : Bool) :
    Stored xs D k (cycle D P acc x u) := by
  refine ⟨?_, ?_, fun j h₁ h₂ => ?_, ?_⟩
  · simp [cycle, hw, h.wptr]
  · simp [cycle, hw, h.size]
  · simpa [cycle, hw] using h.kept j h₁ h₂
  · simp [cycle, hw, h.wrapped]

/-- Where the loop is before sample `k`. `FILLING` takes a sample even when `pretrig` is 0, and a
trigger that comes in it is lost. -/
inductive Phase (D P T k : ℕ) (u : CapState α) : Prop
  | filling (st : u.st = .filling) (fill : u.fill = k) (lt : k < max P 1)
  | armed (st : u.st = .armed) (le : max P 1 ≤ k) (waits : T < max P 1 ∨ k ≤ T)
  | triggered (st : u.st = .triggered) (le : max P 1 ≤ T) (lt : T < k) (index : u.trigIndex = some (T % D))
      (post : u.post = (D : ℤ) - P - (k - T)) (left : k + P < T + D ∨ k = T + 1 ∧ P + 1 = D)

structure At (xs : List α) (D P T k : ℕ) (u : CapState α) : Prop where
  stored : Stored xs D k u
  phase : Phase D P T k u

theorem At.start (hD : 0 < D) : At xs D P T 0 (CapState.start D) :=
  ⟨.start hD, .filling rfl rfl (by omega)⟩

theorem At.lt (h : At xs D P T k u) (hT : max P 1 ≤ T) : k < consumed D P T := by
  rw [consumed]
  rcases h.phase with ⟨-, -, hlt⟩ | ⟨-, -, hlt⟩ | ⟨-, -, -, -, -, hlt⟩ <;> omega

/-- One pass of the loop. -/
theorem At.step (h : At xs D P T k u) (hP : P < D) (hx : xs[k]? = some x) :
    let u' := cycle D P (u.acc k T) x u
    (u'.st ≠ .done ∧ At xs D P T (k + 1) u') ∨
      (u'.st = .done ∧ max P 1 ≤ T ∧ k + 1 = consumed D P T ∧ Stored xs D (T + D - P) u' ∧
        u'.trigIndex = some (T % D)) := by
  intro u'
  have hD : 0 < D := by omega
  cases h.phase with
  | filling st fill lt =>
    have hw : u.wr = true := by simp [wr, st]
    have hacc : u.acc k T = false := by simp [acc, st]
    have hnext : u.fillNext = k + 1 := by simp [fillNext, fillWr, hw, st, fill]
    have hst : u'.st = if P ≤ k + 1 then .armed else .filling := by simp [u', cycle, st, hnext]
    refine Or.inl ⟨by rw [hst]; split <;> decide, h.stored.write hD hx hw _, ?_⟩
    by_cases hle : P ≤ k + 1
    · exact .armed (by rw [hst, if_pos hle]) (by omega) (by omega)
    · exact .filling (by rw [hst, if_neg hle]) hnext (by omega)
  | armed st le waits =>
    have hw : u.wr = true := by simp [wr, st]
    by_cases hk : k = T
    · subst hk
      have hacc : u.acc k k = true := by simp [acc, st]
      have hst : u'.st = .triggered := by simp [u', cycle, st, hacc]
      refine Or.inl ⟨by rw [hst]; decide, h.stored.write hD hx hw _, .triggered hst (by omega) (by omega) ?_ ?_ ?_⟩
      · simp [u', cycle, hacc, h.stored.wptr]
      · simp [u', cycle, hacc]
      · omega
    · have hacc : u.acc k T = false := by simp [acc, hk]
      have hst : u'.st = .armed := by simp [u', cycle, st, hacc]
      exact Or.inl ⟨by rw [hst]; decide, h.stored.write hD hx hw _, .armed hst (by omega) (by omega)⟩
  | triggered st le lt index post left =>
    have hacc : u.acc k T = false := by simp [acc, st]
    have hindex : u'.trigIndex = some (T % D) := by simp [u', cycle, hacc, index]
    rcases left with hlt | ⟨rfl, hfull⟩
    · have hw : u.wr = true := by
        simp [wr, st, post]
        omega
      have hnext : u.postNext = (D : ℤ) - P - ((k + 1 : ℕ) - T) := by
        simp [postNext, postWr, hw, st, post]
        ring
      have hst : u'.st = if u.postNext = 0 then .done else .triggered := by simp [u', cycle, st]
      have hstored : Stored xs D (k + 1) u' := h.stored.write hD hx hw _
      by_cases hend : k + 1 + P = T + D
      · refine Or.inr ⟨?_, le, by rw [consumed]; omega, ?_, hindex⟩
        · rw [hst, if_pos (by rw [hnext]; omega)]
        · rwa [show T + D - P = k + 1 by omega]
      · have hst' : u'.st = .triggered := by rw [hst, if_neg (by rw [hnext]; omega)]
        refine Or.inl ⟨by rw [hst']; decide, hstored, .triggered hst' le (by omega) hindex ?_ (by omega)⟩
        simp [u', cycle, hacc, hnext]
    · have hw : u.wr = false := by
        simp [wr, st, post]
        omega
      have hnext : u.postNext = 0 := by
        simp [postNext, postWr, hw, post]
        omega
      refine Or.inr ⟨by simp [u', cycle, st, hnext], le, by rw [consumed]; omega, ?_, hindex⟩
      rw [show T + D - P = T + 1 by omega]
      exact h.stored.hold hw _

theorem Stored.captured (h : Stored xs D (T + D - P) u) (hP : P < D) : Captured xs D P T u.buf :=
  ⟨h.size, fun j h₁ h₂ => h.kept j (by omega) (by omega)⟩

theorem At.loop (h : At xs D P T k u) (hP : P < D) (hk : k ≤ xs.length)
    (out : List (Option α) × Option ℕ × Bool × ℕ) : loop D P T k u (xs.drop k) = some out ↔
      max P 1 ≤ T ∧ consumed D P T ≤ xs.length ∧ Captured xs D P T out.1 ∧
        out.2 = (some (T % D), true, consumed D P T) := by
  generalize hstim : xs.drop k = stim
  induction stim generalizing k u with
  | nil =>
    have hlen := List.drop_eq_nil_iff.mp hstim
    rw [CapState.loop]
    refine ⟨fun hq => (by cases hq), fun ⟨hT, hn, _⟩ => ?_⟩
    have hlt := h.lt hT
    omega
  | cons x stim ih =>
    have hlt : k < xs.length := by
      by_contra hge
      rw [List.drop_eq_nil_iff.mpr (by omega)] at hstim
      cases hstim
    rw [List.drop_eq_getElem_cons hlt, List.cons.injEq] at hstim
    obtain ⟨hx, hrest⟩ := hstim
    have hx : xs[k]? = some x := by rw [List.getElem?_eq_getElem hlt, hx]
    rw [CapState.loop]
    rcases h.step hP hx with ⟨hst, hnext⟩ | ⟨hst, hT, hn, hstored, hindex⟩
    · simp only [if_neg hst]
      exact ih hnext hlt hrest
    · have hcap := hstored.captured hP
      have hn' : consumed D P T = T + 1 + max (D - 1 - P) 1 := rfl
      have hwrapped := hstored.wrapped
      rw [decide_eq_true (by omega : D ≤ T + D - P)] at hwrapped
      simp only [if_pos hst, hcap.full (by omega) (by omega), ↓reduceIte, Option.some.injEq, hindex, hwrapped, hn]
      constructor
      · rintro rfl
        exact ⟨hT, by omega, hcap, rfl⟩
      · rintro ⟨-, -, hout, htail⟩
        exact Prod.ext (hcap.unique hout (by omega)) htail.symm

end CapState

/-- `capture_model` returns if and only if the trigger comes in `ARMED` and the stimulus lasts. The
assertion at the end never fails, and `wrapped` is always set. -/
theorem captureModel_eq_some_iff {α : Type*} (stim : List α) (depthLog2 pretrig trigSample : ℕ)
    (buf : List (Option α)) (trigIndex : Option ℕ) (wrapped : Bool) (n : ℕ) :
    captureModel stim depthLog2 pretrig trigSample = some (buf, trigIndex, wrapped, n) ↔
      pretrig < 2 ^ depthLog2 ∧ max pretrig 1 ≤ trigSample ∧ n ≤ stim.length ∧
      n = trigSample + 1 + max (2 ^ depthLog2 - 1 - pretrig) 1 ∧ Captured stim (2 ^ depthLog2) pretrig trigSample buf ∧
      trigIndex = some (trigSample % 2 ^ depthLog2) ∧ wrapped = true := by
  rw [captureModel, Nat.one_shiftLeft]
  split
  · rename_i h
    have hstart : CapState.At stim (2 ^ depthLog2) pretrig trigSample 0 (CapState.start (2 ^ depthLog2)) :=
      .start (Nat.two_pow_pos depthLog2)
    have hloop := hstart.loop h.1 (Nat.zero_le _) (buf, trigIndex, wrapped, n)
    rw [List.drop_zero] at hloop
    rw [hloop]
    simp only [consumed, Prod.mk.injEq]
    constructor
    · rintro ⟨hT, hn, hcap, hindex, hwrapped, rfl⟩
      exact ⟨h.1, hT, hn, rfl, hcap, hindex, hwrapped⟩
    · rintro ⟨-, hT, hn, rfl, hcap, hindex, hwrapped⟩
      exact ⟨hT, hn, hcap, hindex, hwrapped, rfl⟩
  · rename_i h
    refine ⟨fun hq => (by cases hq), fun ⟨hP, hT, _⟩ => absurd ⟨hP, by omega⟩ h⟩

end FpgaScope.Sim
