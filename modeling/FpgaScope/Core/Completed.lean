import FpgaScope.Core.Phase

/-! Completed windows. When the FSM goes from `TRIGGERED` to `DONE` the slice holds
one slice of consecutive samples, and the host's `reorder_window` puts them back
in acquisition order with the trigger sample at `PRETRIG_EFF`. -/

namespace FpgaScope.Core

open Clocked Host

variable {W L T : ℕ}

section
variable (c₀ : Core W L T) (inp : ℕ → CoreIn W L)

/-- `a` is the last accepted arm before cycle `n`. -/
structure LastArm (a n : ℕ) : Prop where
  lt : a < n
  accept : armAccept (run c₀ inp a) (inp a) = true
  quiet : ∀ v, a < v → v < n → armAccept (run c₀ inp v) (inp v) = false

/-- The window that completes in cycle `n` began in cycle `f` and accepted its
trigger in cycle `u`; sample `k` of the stream is its oldest one. -/
structure WindowDone (n f u k : ℕ) : Prop where
  begins : ∃ g, f = g + 1 ∧ ((run c₀ inp g).st = .idle ∨ (run c₀ inp g).st = .done)
  f_le : f ≤ u
  u_lt : u < n
  accept : trigAccept (run c₀ inp u) (inp u) = true
  before : ∀ v, f ≤ v → v ≤ u → (run c₀ inp v).st = .filling ∨ (run c₀ inp v).st = .armed
  after : ∀ v, u < v → v ≤ n → (run c₀ inp v).st = .triggered
  wrapped : (run c₀ inp (n + 1)).wrapped = true
  first : (presented inp f).length ≤ k
  last : k + sizeAt c₀ inp (n + 1) ≤ (presented inp (n + 1)).length
  trig_pos : k + preAt c₀ inp n = (presented inp u).length
  pre_lt : preAt c₀ inp n < sizeAt c₀ inp (n + 1)
  trig_slot : (run c₀ inp (n + 1)).trigIndex.toNat =
    (run c₀ inp (n + 1)).base.toNat + stored inp f u % sizeAt c₀ inp (n + 1)
  trig_word : (run c₀ inp (n + 1)).uBuf.mem (run c₀ inp (n + 1)).trigIndex = (inp u).sampleData
  read_back : reorderWindow (slice (run c₀ inp (n + 1)))
      ((run c₀ inp (n + 1)).trigIndex.toNat - (run c₀ inp (n + 1)).base.toNat)
      (run c₀ inp (n + 1)).wrapped (preAt c₀ inp n) =
    (((presented inp (n + 1)).drop k).take (sizeAt c₀ inp (n + 1)), (preAt c₀ inp n : ℤ))

end

variable {c₀ : Core W L T} {inp : ℕ → CoreIn W L} {n : ℕ}

/-! ### The arm cycle of a run -/

theorem windowsQ_of_armAccept {a : ℕ} (h : armAccept (run c₀ inp a) (inp a) = true) :
    (run c₀ inp (a + 1)).windowsQ = (inp a).windows := by
  simp only [armAccept, Bool.and_eq_true, Bool.or_eq_true, beq_iff_eq, Bool.not_eq_true'] at h
  obtain ⟨⟨ha, hd⟩, hs⟩ := h
  rw [run_succ, step, control, hd, if_neg (by simp)]
  rcases hs with hs | hs <;> simp [hs, ha, startRun]

theorem windowsQ_of_not_armAccept (c : Core W L T) (i : CoreIn W L) (h : armAccept c i = false) :
    (step c i).windowsQ = c.windowsQ := by
  have hm := step_move c i
  generalize step c i = c' at hm
  cases hm with
  | start ha => rw [ha] at h; cases h
  | _ => rfl

/-- The window count in force is the one presented with the last accepted arm. -/
theorem LastArm.windowsQ {a : ℕ} (h : LastArm c₀ inp a n) :
    (run c₀ inp n).windowsQ = (inp a).windows := by
  obtain ⟨hlt, hacc, hq⟩ := h
  induction n, hlt using Nat.le_induction with
  | base => exact windowsQ_of_armAccept hacc
  | succ n hn ih =>
    rw [run_succ, windowsQ_of_not_armAccept _ _ (hq n hn (Nat.lt_succ_self n))]
    exact ih fun v h₁ h₂ => hq v h₁ (by omega)

theorem LastArm.extend {a : ℕ} (h : LastArm c₀ inp a n)
    (hn : armAccept (run c₀ inp n) (inp n) = false) : LastArm c₀ inp a (n + 1) := by
  refine ⟨by have := h.lt; omega, h.accept, fun v h₁ h₂ => ?_⟩
  rcases Nat.lt_or_ge v n with hv | hv
  · exact h.quiet v h₁ hv
  · rwa [show v = n by omega]

/-- Outside `IDLE` some arm was accepted. -/
theorem exists_lastArm (c₀ : Core W L T) (inp : ℕ → CoreIn W L) (n : ℕ)
    (h : (run c₀ inp n).st ≠ .idle) : ∃ a, LastArm c₀ inp a n := by
  induction n with
  | zero => exact absurd rfl h
  | succ n ih =>
    by_cases ha : armAccept (run c₀ inp n) (inp n) = true
    · exact ⟨n, Nat.lt_succ_self n, ha, fun v h₁ h₂ => by omega⟩
    · have ha' : armAccept (run c₀ inp n) (inp n) = false := by simpa using ha
      have hn : (run c₀ inp n).st ≠ .idle := by
        intro hidle
        have hm := step_move (run c₀ inp n) (inp n)
        rw [← run_succ] at hm
        generalize hc : run c₀ inp (n + 1) = c' at hm h
        cases hm with
        | abort _ => exact h rfl
        | rest _ _ _ => exact h hidle
        | start hacc => exact ha hacc
        | fill _ hs | backlog _ hs | circulate _ hs | trigger _ hs
        | post _ hs | complete _ hs | rearm _ hs | park _ hs => simp [hidle] at hs
      obtain ⟨a, hla⟩ := ih hn
      exact ⟨a, hla.extend ha'⟩

/-! ### Completion -/

/-- The only way from `TRIGGERED` into `DONE`. -/
theorem complete_move (hs : (run c₀ inp n).st = .triggered) (hd : (run c₀ inp (n + 1)).st = .done) :
    (inp n).disarm = false ∧ postNext (run c₀ inp n) (inp n) = 0 ∧
      run c₀ inp (n + 1) = { datapath (run c₀ inp n) (inp n) with
        st := .done, windowsDone := (run c₀ inp n).windowsDone + 1 } := by
  have hm := step_move (run c₀ inp n) (inp n)
  rw [← run_succ] at hm
  generalize run c₀ inp (n + 1) = c' at hm hd
  cases hm with
  | complete hdis _ h0 => exact ⟨hdis, h0, rfl⟩
  | abort _ => cases hd
  | start ha =>
    simp only [armAccept, hs, Bool.and_eq_true] at ha
    exact absurd ha.2 (by decide)
  | post _ _ _ => simp [hs] at hd
  | rest _ hs' | fill _ hs' | backlog _ hs' | circulate _ hs'
  | trigger _ hs' | rearm _ hs' | park _ hs' => simp [hs] at hs'

section
variable (hL : 1 ≤ L) (hL' : L ≤ 16)
include hL hL'

/-- The last cycle of a window leaves the newest slice of samples behind. -/
theorem slice_complete {f m : ℕ} (hs : (run c₀ inp n).st = .triggered)
    (hd : (run c₀ inp (n + 1)).st = .done)
    (hw : SliceInv inp (run c₀ inp n) n f (stored inp f n))
    (hpost : (run c₀ inp n).postRemaining.toNat + stored inp f n = m) :
    SliceInv inp (run c₀ inp (n + 1)) (n + 1) f m := by
  obtain ⟨-, h0, hc⟩ := complete_move hs hd
  have hsum := postNext_toNat hL (run c₀ inp n) (inp n)
  have h0' : (postNext (run c₀ inp n) (inp n)).toNat = 0 := by rw [h0]; rfl
  rw [h0', Nat.zero_add, postWr, hs, beq_self_eq_true, Bool.and_true] at hsum
  have hdata : SliceInv inp (datapath (run c₀ inp n) (inp n)) (n + 1) f m := by
    cases hcap : captureWr (run c₀ inp n) (inp n) with
    | true =>
      have hnext := stored_valid hw.f_le (captureWr_valid hcap)
      rw [hcap, Bool.toNat_true] at hsum
      rw [show m = stored inp f (n + 1) by omega]
      exact hw.store hL hL' (shape_run hL hL' c₀ inp n) hcap
    | false =>
      rw [hcap, Bool.toNat_false] at hsum
      rw [show m = stored inp f n by omega]
      exact hw.hold hL hL' hcap
  exact hdata.congr (by rw [hc]) (by rw [hc]) (by rw [hc]) (by rw [hc]) (by rw [hc])

/-- Every completed window is one slice of consecutive samples around its
trigger, and `reorder_window` restores their order. -/
theorem window_complete (hp : PretrigHeld c₀ inp) (hs : (run c₀ inp n).st = .triggered)
    (hd : (run c₀ inp (n + 1)).st = .done) : ∃ f u k, WindowDone c₀ inp n f u k := by
  cases phase_run hL hL' hp n with
  | quiet hq => simp [hs] at hq
  | filling f hw hall => exact absurd (hall n hw.slice.f_le le_rfl) (by simp [hs])
  | armed f hw hs' => simp [hs] at hs'
  | triggered f u hw hu hacc hb ha hf hpre hidx hpost =>
    obtain ⟨-, -, hc⟩ := complete_move hs hd
    have hlt : preAt c₀ inp n < sizeAt c₀ inp n := pretrigOf_lt hL hL' _ _
    have hsize : sizeAt c₀ inp (n + 1) = sizeAt c₀ inp n := by rw [sizeAt, hc]; rfl
    have hslice := slice_complete hL hL' (m := stored inp f u + sizeAt c₀ inp n - preAt c₀ inp n)
      hs hd hw.slice (by omega)
    have hidx' : (run c₀ inp (n + 1)).trigIndex.toNat = (run c₀ inp (n + 1)).base.toNat +
        stored inp f u % sizeAt c₀ inp (n + 1) := by
      rw [hsize, hc]
      change (datapath (run c₀ inp n) (inp n)).trigIndex.toNat = _
      rw [trigIndex_kept _ (by simp [hs]), hidx, datapath_base]
    have hwr : (run c₀ inp (n + 1)).wrapped = true := by
      rw [hslice.wrapped, decide_eq_true_iff]
      change sizeAt c₀ inp (n + 1) ≤ _
      omega
    have hsum := stored_add inp hf
    have hS : sliceSize L (run c₀ inp (n + 1)).windowsQ = sizeAt c₀ inp n := hsize
    have hread := hslice.holds.read_out (by omega)
    have hlast : (presented inp f).length + (stored inp f u + sizeAt c₀ inp n - preAt c₀ inp n) ≤
        (presented inp (n + 1)).length := by
      have hx := hslice.holds (stored inp f u + sizeAt c₀ inp n - preAt c₀ inp n - 1)
        (by omega) (by omega)
      obtain ⟨hlen, -⟩ := List.getElem?_eq_some_iff.mp hx
      rw [List.length_drop] at hlen
      omega
    refine ⟨f, u, (presented inp f).length + (stored inp f u - preAt c₀ inp n), ?_⟩
    have hword : (run c₀ inp (n + 1)).uBuf.mem (run c₀ inp (n + 1)).trigIndex =
        (inp u).sampleData := by
      have hx := hslice.holds (stored inp f u) (by omega) (by omega)
      have hget : (presented inp (n + 1))[(presented inp u).length]? = some (inp u).sampleData :=
        collect_getElem (by rw [validSample, if_pos (trigAccept_valid hacc)]) (by omega)
      rw [List.getElem?_drop, hsum, hget, hS, ← hsize] at hx
      have hx' := Option.some.inj hx
      change (inp u).sampleData = bufAt _ (_ + _) at hx'
      rw [hx', ← hidx', bufAt, BitVec.ofNat_toNat, BitVec.setWidth_eq]
    refine ⟨hw.begins, hf, hu, hacc, hb, ha, hwr, by omega, by omega, by omega, by omega, hidx',
      hword, ?_⟩
    have hslot : ((stored inp f u + sizeAt c₀ inp n - preAt c₀ inp n : ℕ) : ℤ) %
        (sizeAt c₀ inp n : ℕ) = (((stored inp f u % sizeAt c₀ inp n : ℕ) : ℤ) +
          ((sizeAt c₀ inp n : ℕ) - (preAt c₀ inp n : ℕ))) % (sizeAt c₀ inp n : ℕ) := by
      rw [Int.natCast_mod, Int.emod_add_emod]
      congr 1
      omega
    rw [hS] at hread
    have htrig : ((run c₀ inp (n + 1)).trigIndex.toNat : ℤ) - (run c₀ inp (n + 1)).base.toNat =
        (stored inp f u % sizeAt c₀ inp n : ℕ) := by
      rw [hidx', hsize]
      push_cast
      ring
    rw [htrig, hwr, slice, hS, hsize, reorderWindow_wrapped _ _ _ _ _ (by omega) hslot, hread,
      List.drop_drop]
    congr 4
    omega

/-- A completed window, seen from the host: `a` is the arm cycle of the run, `u`
the cycle that accepted the trigger, and the host's order is the stream of valid
samples from sample `k` on. -/
structure Reconstructed (c₀ : Core W L T) (inp : ℕ → CoreIn W L) (n a u k : ℕ) : Prop where
  arm : LastArm c₀ inp a n
  accept : u < n ∧ trigAccept (run c₀ inp u) (inp u) = true
  after : ∀ v, u < v → v ≤ n → (run c₀ inp v).st = .triggered
  wrapped : (run c₀ inp (n + 1)).wrapped = true
  order : reorderWindow (slice (run c₀ inp (n + 1)))
      ((run c₀ inp (n + 1)).trigIndex.toNat - (run c₀ inp (n + 1)).base.toNat)
      (run c₀ inp (n + 1)).wrapped (pretrigOf L (inp n).pretrig (inp a).windows) =
    (((presented inp (n + 1)).drop k).take (sliceSize L (inp a).windows),
      (pretrigOf L (inp n).pretrig (inp a).windows : ℤ))
  full : (((presented inp (n + 1)).drop k).take (sliceSize L (inp a).windows)).length =
    sliceSize L (inp a).windows
  trigger : (((presented inp (n + 1)).drop k).take (sliceSize L (inp a).windows))[
    pretrigOf L (inp n).pretrig (inp a).windows]? = some (inp u).sampleData
  /-- The post counter starts and counts without underflow. -/
  budget : ∀ v, (trigAccept (run c₀ inp v) (inp v) = true →
      (pretrigEff (run c₀ inp v) (inp v)).toNat ≤ (run c₀ inp v).sliceMask.toNat) ∧
    (postWr (run c₀ inp v) (inp v) = true → 0 < (run c₀ inp v).postRemaining.toNat)

/-- Whenever a window completes, `reorder_window` gives one slice of consecutive
samples with the trigger sample at the effective pretrigger position. -/
theorem completed_window_reconstructed (c₀ : Core W L T) (inp : ℕ → CoreIn W L)
    (hp : PretrigHeld c₀ inp) (n : ℕ) (hs : (run c₀ inp n).st = .triggered)
    (hd : (run c₀ inp (n + 1)).st = .done) : ∃ a u k, Reconstructed c₀ inp n a u k := by
  obtain ⟨f, u, k, hw⟩ := window_complete hL hL' hp hs hd
  obtain ⟨a, ha⟩ := exists_lastArm c₀ inp n (by simp [hs])
  have hq : (run c₀ inp n).windowsQ = (inp a).windows := ha.windowsQ
  have hq' : (run c₀ inp (n + 1)).windowsQ = (inp a).windows := by
    rw [(complete_move hs hd).2.2]
    exact hq
  have hpre : preAt c₀ inp n = pretrigOf L (inp n).pretrig (inp a).windows := by rw [preAt, hq]
  have hsize : sizeAt c₀ inp (n + 1) = sliceSize L (inp a).windows := by rw [sizeAt, hq']
  have hread := hw.read_back
  have hlast := hw.last
  have hlt := hw.pre_lt
  have hpos := hw.trig_pos
  rw [hpre, hsize] at hread hlt
  rw [hsize] at hlast
  rw [hpre] at hpos
  refine ⟨a, u, k, ha, ⟨hw.u_lt, hw.accept⟩, hw.after, hw.wrapped, hread, ?_, ?_, fun v => ?_⟩
  · rw [List.length_take, List.length_drop]
    omega
  · rw [List.getElem?_take_of_lt hlt, List.getElem?_drop, hpos]
    exact collect_getElem (by rw [validSample, if_pos (trigAccept_valid hw.accept)])
      (by have := hw.u_lt; omega)
  · have hsh := shape_run hL hL' c₀ inp v
    refine ⟨fun _ => ?_, fun h => ?_⟩
    · rw [pretrigEff_toNat hL hL' hsh, hsh.mask]
      have := pretrigOf_lt hL hL' (inp v).pretrig (run c₀ inp v).windowsQ
      omega
    · have hsum := postNext_toNat hL (run c₀ inp v) (inp v)
      rw [h, Bool.toNat_true] at hsum
      omega

end

/-! ### A short run -/

/-- An all-zero state to start runs from. -/
def blank (W L T : ℕ) : Core W L T where
  st := .idle
  offset := 0
  base := 0
  sliceMask := 0
  weffLog2Q := 0
  winIdx := 0
  windowsQ := 0
  fillCnt := 0
  postRemaining := 0
  triggered := false
  wrapped := false
  windowsDone := 0
  trigIndex := 0
  ts := 0
  tsAtTrig := 0
  uBuf := { mem := fun _ => 0, rdData := 0 }
  uWinMeta := { mem := fun _ => 0, rdData := 0 }

/-- Arm in cycle 0, samples counting up, trigger from cycle 3 on, two samples a slice. -/
def countingIn (n : ℕ) : CoreIn 8 8 where
  sampleData := BitVec.ofNat 8 n
  sampleValid := true
  trig := decide (3 ≤ n)
  arm := decide (n = 0)
  disarm := false
  pretrig := 0
  windows := 128
  rdAddr := 0
  winRdAddr := 0

theorem countingIn_reconstructed :
    (run (blank 8 8 48) countingIn 4).st = .triggered ∧
      (run (blank 8 8 48) countingIn 5).st = .done ∧
      ∃ a u k, Reconstructed (blank 8 8 48) countingIn 4 a u k :=
  ⟨by decide, by decide, completed_window_reconstructed (by decide) (by decide) (blank 8 8 48)
    countingIn (fun _ _ _ => rfl) 4 (by decide) (by decide)⟩

end FpgaScope.Core
