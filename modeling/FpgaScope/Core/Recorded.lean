import FpgaScope.Core.Slices

/-! What the record of a completed window says later in the run. Its metadata entry gives
the trigger address inside its slice, and `reorder_window` on the slice, with that
address, gives the stream around the trigger, whatever has been captured since. -/

namespace FpgaScope.Core

open Clocked Host

variable {W L T : ℕ}

/-- Window `j` of `size` words completed in cycle `d` with its trigger of cycle `u` at the
address `trig` and `pre` samples of history; in cycle `t` its record and its slice tell the
stream from sample `k` on. -/
structure Recorded (c₀ : Core W L T) (inp : ℕ → CoreIn W L) (t j : ℕ) (windows : BitVec 8)
    (pre : ℕ) (trig : BitVec L) (u d k : ℕ) : Prop where
  before : d < t
  done : (run c₀ inp (d + 1)).st = .done ∧ (run c₀ inp (d + 1)).windowsDone.toNat = j + 1
  trigger : TriggeredAt c₀ inp d u
  latched : (run c₀ inp (d + 1)).trigIndex = trig ∧ (run c₀ inp (d + 1)).wrapped = true
  entry : (run c₀ inp t).uWinMeta.mem (BitVec.ofNat 8 j) = BitVec.cons true trig
  slot : j * sliceSize L windows ≤ trig.toNat ∧ trig.toNat < (j + 1) * sliceSize L windows
  order : reorderWindow (sliceAt windows (run c₀ inp t) j) (trig.toNat - (j * sliceSize L windows : ℕ))
      true pre = (((presented inp (d + 1)).drop k).take (sliceSize L windows), (pre : ℤ))
  word : (((presented inp (d + 1)).drop k).take (sliceSize L windows))[pre]? = some (inp u).sampleData

theorem LastArm.restrict {c₀ : Core W L T} {inp : ℕ → CoreIn W L} {a m n : ℕ} (h : LastArm c₀ inp a n)
    (hm : a < m) (hle : m ≤ n) : LastArm c₀ inp a m :=
  ⟨hm, h.accept, fun v h₁ h₂ => h.quiet v h₁ (by omega)⟩

/-- Every window completed since the last accepted arm is on record. -/
theorem recorded_run (hL : 1 ≤ L) (hL' : L ≤ 16) {c₀ : Core W L T} {inp : ℕ → CoreIn W L}
    (hp : PretrigHeld c₀ inp) {a t : ℕ} (ha : LastArm c₀ inp a t) (h1 : 1 ≤ (inp a).windows.toNat)
    (h2 : (inp a).windows.toNat ≤ depth L / 2) {j : ℕ} (hj : j < (run c₀ inp t).windowsDone.toNat) :
    ∃ trig u d k, a < d ∧
      Recorded c₀ inp t j (inp a).windows (pretrigOf L (inp d).pretrig (inp a).windows) trig u d k := by
  obtain ⟨u, d, hk⟩ := allKept_run hL hL' ha h1 h2 j hj
  obtain ⟨hs, hd⟩ := hk.completes
  obtain ⟨f, u', k, hw⟩ := window_complete hL hL' hp hs hd
  obtain ⟨-, -, hc⟩ := complete_move hs hd
  have hbefore := hk.before
  have hafter := hk.after
  have hq : (run c₀ inp d).windowsQ = (inp a).windows := (ha.restrict hafter hbefore.le).windowsQ
  have harm := ha.restrict (show a < d + 1 by omega) hbefore
  have hq' : (run c₀ inp (d + 1)).windowsQ = (inp a).windows := harm.windowsQ
  have hsize : sizeAt c₀ inp (d + 1) = sliceSize L (inp a).windows := by rw [sizeAt, hq']
  have hpre : preAt c₀ inp d = pretrigOf L (inp d).pretrig (inp a).windows := by rw [preAt, hq]
  have hbase : (run c₀ inp (d + 1)).base.toNat = j * sliceSize L (inp a).windows := by
    have hsh := shape_run hL hL' c₀ inp (d + 1)
    have hb := (base_eq hL hL' hsh (counted_run hL hL' harm h1) (by rw [hq']; exact h2)).1
    rwa [hk.index.1, hq'] at hb
  have htrig : (run c₀ inp (d + 1)).trigIndex = wrAddrW (run c₀ inp u) := by
    rw [← hk.trigger.index, hc]
    exact trigIndex_kept _ (by simp [hs])
  have huniq : u' = u := by
    -- the window is `TRIGGERED` in every cycle behind either of the two, but not in one of them
    have hu := hk.trigger
    have hne : ∀ v, trigAccept (run c₀ inp v) (inp v) = true → (run c₀ inp v).st ≠ .triggered := by
      intro v hv hst
      rw [trigAccept_of_ne _ (by simp [hst])] at hv
      cases hv
    rcases Nat.lt_trichotomy u' u with hlt | heq | hgt
    · exact absurd (hw.after u hlt hu.lt.le) (hne u hu.accept)
    · exact heq
    · exact absurd (hu.after u' hgt hw.u_lt.le) (hne u' hw.accept)
  have hread := hw.read_back
  have hslot := hw.trig_slot
  have hpos := sliceSize_pos hL hL' (inp a).windows
  have hmod := Nat.mod_lt (stored inp f u') hpos
  rw [hsize, hbase] at hslot
  refine ⟨(run c₀ inp (d + 1)).trigIndex, u, d, k, hafter, hbefore, ⟨hd, hk.index.2⟩, hk.trigger, ⟨rfl, hw.wrapped⟩,
    ?_, ⟨by omega, by rw [Nat.succ_mul]; omega⟩, ?_, ?_⟩
  · rw [hk.entry, hw.wrapped, htrig]
  · rw [hk.samples, ← hpre, ← hsize, ← hread, hw.wrapped, hsize, hbase]
  · have hlt := hw.pre_lt
    rw [hsize, hpre] at hlt
    rw [List.getElem?_take_of_lt hlt, List.getElem?_drop, ← hpre, hw.trig_pos, huniq]
    exact collect_getElem (by rw [validSample, if_pos (trigAccept_valid hk.trigger.accept)])
      (by have := hk.trigger.lt; omega)

/-- The record of a window stays as it is up to the next accepted arm. -/
theorem entry_kept (hL : 1 ≤ L) (hL' : L ≤ 16) {c₀ : Core W L T} {inp : ℕ → CoreIn W L} {a s t : ℕ}
    (ha : LastArm c₀ inp a t) (h1 : 1 ≤ (inp a).windows.toNat) (h2 : (inp a).windows.toNat ≤ depth L / 2)
    (has : a < s) (hst : s ≤ t) {j : ℕ} (hj : j < (run c₀ inp s).windowsDone.toNat) :
    j < (run c₀ inp t).windowsDone.toNat ∧
      (run c₀ inp t).uWinMeta.mem (BitVec.ofNat 8 j) = (run c₀ inp s).uWinMeta.mem (BitVec.ofNat 8 j) := by
  induction t, hst using Nat.le_induction with
  | base => exact ⟨hj, rfl⟩
  | succ t hst ih =>
    obtain ⟨ha', hi⟩ := ha.shrink (by omega)
    obtain ⟨hlt, hsame⟩ := ih ha'
    refine ⟨?_, ?_⟩
    · by_cases hnow : (run c₀ inp t).st = .triggered ∧ (run c₀ inp (t + 1)).st = .done
      · obtain ⟨u, hk⟩ := Kept.complete hL hL' ha' h1 h2 hnow.1 hnow.2
        rw [hk.index.2]
        omega
      · rw [run_succ, windowsDone_step hi (by rw [← run_succ]; exact hnow)]
        exact hlt
    · rw [run_succ, entry_step (shape_run hL hL' c₀ inp t) _ hlt, hsame]

end FpgaScope.Core
