import FpgaScope.Capture.RleWindow
import FpgaScope.Host.Windows

/-! A capture of one window. Its slice is the whole buffer, so the buffer as `decode_drain`
reorders it is the window. Under the pretrigger count of the register the list it makes is
the sample stream around the trigger, with the encoder and without. -/

namespace FpgaScope

open Clocked Host

variable {p : Params}

namespace Host

/-- A core at rest goes on decoding to the same capture. -/
theorem captureOf_frozen {a b : Core p.storeW p.depthLog2 p.tsW} (h : a.Frozen b) (pretrigEff : ℤ) :
    captureOf b (wholeBuffer b) pretrigEff = captureOf a (wholeBuffer a) pretrigEff := by
  simp only [captureOf, wholeBuffer, h.wrapped, h.windowsDone, h.trigIndex, h.tsAtTrig, h.buf]

/-- With no history asked for, the trigger of a wrapped buffer comes first. -/
theorem trigPos_zero {core : Core p.storeW p.depthLog2 p.tsW} (hw : core.wrapped = true) :
    (captureOf core (wholeBuffer core) 0).trigPos = 0 := by
  have hlen : (wholeBuffer core).length ≠ 0 := by
    rw [wholeBuffer, List.length_map, List.length_range]
    exact (Nat.two_pow_pos _).ne'
  have hpos := reorderWindow_trigger (wholeBuffer core) core.trigIndex.toNat 0 hlen
  simp only [captureOf, timeOrder, hw]
  cases p.rleEn with
  | false => exact hpos
  | true =>
    simp only [↓reduceIte, hpos]
    rfl

end Host

namespace Capture

theorem captureOf_encoded (hr : p.rleEn = true) (core : Core p.storeW p.depthLog2 p.tsW) (stored : List ℕ) (pre : ℕ) :
    ((captureOf core stored pre).samples, (captureOf core stored pre).trigPos.toNat) =
      decodedWindow p.probeW (reorderWindow stored core.trigIndex.toNat core.wrapped pre) := by
  have hpos := reorderWindow_nonneg stored core.trigIndex.toNat core.wrapped pre
  simp only [captureOf, timeOrder, hr, ↓reduceIte, sliceTo, Int.not_lt.mpr hpos, Int.toNat_natCast]
  rfl

variable {c₀ : Capture p} {inp : ℕ → CaptureIn p} {a n : ℕ}

/-- Without the encoder the core is presented the samples of the store ticks. -/
theorem storedWords_plain (hr : p.rleEn = false) (c₀ : Capture p) (inp : ℕ → CaptureIn p) (n : ℕ) :
    storedWords c₀ inp n = raw c₀ inp n := by
  induction n with
  | zero => rfl
  | succ n ih =>
    have hvalid : (coreInp c₀ inp n).sampleValid = (rleAt c₀ inp n).inValid := by
      change (run c₀ inp n).sampleValid (inp n) = _
      rw [sampleValid, hr, if_neg (by decide)]
      rfl
    have hdata : (coreInp c₀ inp n).sampleData.toNat = (rleAt c₀ inp n).inData.toNat := by
      change ((run c₀ inp n).sampleData (inp n)).toNat = _
      rw [sampleData, hr, if_neg (by decide), BitVec.toNat_setWidth, Params.storeW, hr,
        if_neg (by decide)]
      exact Nat.mod_eq_of_lt (BitVec.isLt _)
    rw [storedWords] at ih ⊢
    cases hv : (rleAt c₀ inp n).inValid with
    | true =>
      rw [Core.presented_valid (hvalid.trans hv), List.map_append, ih, List.map_singleton, hdata]
      exact (collect_some (Rle.sampleOf_valid hv)).symm
    | false =>
      rw [Core.presented_gap (hvalid.trans hv), ih]
      exact (collect_none (if_neg (by rw [hv]; decide))).symm

/-- The only window of the run armed in cycle `a` completed in cycle `d`. -/
structure OnlyWindow (c₀ : Capture p) (inp : ℕ → CaptureIn p) (a n d : ℕ) : Prop where
  after : a < d
  before : d < n
  completes : stAt c₀ inp d = .triggered ∧ stAt c₀ inp (d + 1) = .done
  windows : (run c₀ inp d).core.windowsQ = 1 ∧ (run c₀ inp (d + 1)).core.windowsQ = 1
  base : (run c₀ inp (d + 1)).core.base.toNat = 0
  wrapped : (run c₀ inp (d + 1)).core.wrapped = true
  frozen : (run c₀ inp (d + 1)).core.Frozen (run c₀ inp n).core

theorem onlyWindow_of_done (ha : Core.LastArm c₀.core (coreInp c₀ inp) a n)
    (hq : (run c₀ inp a).csr.windowsQ = 1) (hn : stAt c₀ inp n = .done) :
    parkedAt c₀ inp n ∧ ∃ d, OnlyWindow c₀ inp a n d := by
  obtain ⟨hL, hL'⟩ := depthLog2_bounds p
  obtain ⟨hpos, hle⟩ := windows_bounds c₀ inp a
  have hwin := windowsQ_armed ha
  have hcnt := Core.counted_run hL hL' ha hpos
  have hdone := (shape_at c₀ inp n).count_done hn
  rw [← core_run] at hcnt
  have hidx : (run c₀ inp n).core.winIdx = 0 := by
    have hlt := hcnt.idx_lt
    rw [hwin, hq] at hlt
    exact BitVec.eq_of_toNat_eq (Nat.lt_one_iff.mp hlt)
  have hpark : parkedAt c₀ inp n := ⟨hn, by rw [hdone, hwin, hq, hidx]; decide⟩
  have hcount := parked_count ha hpark
  obtain ⟨u, d, hk⟩ := Core.allKept_run hL hL' ha hpos hle 0 (by rw [← core_run, hcount]; omega)
  obtain ⟨hs, hd⟩ := hk.completes
  obtain ⟨hidx', hdone'⟩ := hk.index
  have hafter := hk.after
  have hbefore := hk.before
  rw [← core_run] at hs hd hidx' hdone'
  have hq' : ∀ v, a < v → v ≤ n → (run c₀ inp v).core.windowsQ = 1 := fun v h₁ h₂ => by
    rw [windowsQ_armed (ha.restrict h₁ h₂), hq]
  refine ⟨hpark, d, hafter, hbefore, ⟨hs, hd⟩, ⟨hq' d hafter hbefore.le, hq' (d + 1) (by omega) hbefore⟩, ?_, ?_,
    frozen_last ha hpark (by omega) hbefore hd (by rw [hdone', hcount, hq]; decide)⟩
  · rw [(shape_at c₀ inp (d + 1)).base, hidx', Nat.zero_mul, Nat.zero_mod]
  · obtain ⟨_, _, _, hw, -, -⟩ := window_done hs hd
    rw [core_run]
    exact hw.wrapped

/-- The trigger of the window that completes in cycle `d`: it was accepted in cycle `u` and
asserted on the sample of cycle `v`. -/
structure TriggerOf (c₀ : Capture p) (inp : ℕ → CaptureIn p) (a d u v : ℕ) : Prop where
  completes : stAt c₀ inp (d + 1) = .done
  after : a < u
  accept : u < d ∧ acceptsAt c₀ inp u = true
  stays : ∀ w, u < w → w ≤ d → stAt c₀ inp w = .triggered
  asserted : (v = u ∨ v + 1 = u) ∧ (run c₀ inp v).trigFire (inp v) = true

/-- An arm is accepted in `IDLE` or `DONE`, a trigger neither there nor before it in its window. -/
theorem accept_after_arm {d u : ℕ} (ha : Core.LastArm c₀.core (coreInp c₀ inp) a d)
    (hacc : acceptsAt c₀ inp u = true) (hstays : ∀ w, u < w → w ≤ d → stAt c₀ inp w = .triggered) : a < u := by
  have harm := ha.accept
  rw [← core_run] at harm
  simp only [Core.armAccept, Bool.and_eq_true, Bool.or_eq_true, beq_iff_eq] at harm
  have hst : stAt c₀ inp a = .idle ∨ stAt c₀ inp a = .done := harm.2
  rcases Nat.lt_trichotomy a u with hlt | rfl | hgt
  · exact hlt
  · rw [accepts_armed hacc] at hst
    exact absurd hst (by decide)
  · rw [hstays a hgt ha.lt.le] at hst
    exact absurd hst (by decide)

namespace OnlyWindow

variable {d : ℕ} (h : OnlyWindow c₀ inp a n d)
include h

theorem buffer : (run c₀ inp (d + 1)).core.slice.map BitVec.toNat = wholeBuffer (run c₀ inp (d + 1)).core := by
  obtain ⟨hL, hL'⟩ := depthLog2_bounds p
  rw [Core.slice, h.windows.2, Core.sliceSize_one hL hL', h.base, List.map_map, wholeBuffer]
  simp only [Nat.zero_add]
  rfl

theorem reordered_eq (pre : ℕ) : reordered c₀ inp (d + 1) pre =
    reorderWindow (wholeBuffer (run c₀ inp (d + 1)).core) (run c₀ inp (d + 1)).core.trigIndex.toNat
      (run c₀ inp (d + 1)).core.wrapped pre := by
  rw [reordered, h.buffer, h.base, Nat.cast_zero, sub_zero]

/-- With the encoder. -/
theorem cut_encoded (hr : p.rleEn = true) (hW : p.depthLog2 ≤ p.probeW)
    (ha : Core.LastArm c₀.core (coreInp c₀ inp) a d) : ∃ u v k, TriggerOf c₀ inp a d u v ∧
      Cut (raw c₀ inp (d + 1)) k (raw c₀ inp v).length
        (decodedWindow p.probeW (reordered c₀ inp (d + 1) (run c₀ inp a).csr.pretrigQ.toNat)) := by
  obtain ⟨hL, hL'⟩ := depthLog2_bounds p
  obtain ⟨hs, hd⟩ := h.completes
  obtain ⟨u, v, k, haccept, hstays, hasserted, hcut⟩ := decoded_cut hr hW ha hs hd
  have hq : (run c₀ inp a).csr.windowsQ = 1 := by rw [← windowsQ_armed ha, h.windows.1]
  rw [hq, Core.pretrigOf_one hL hL', pretrigQ_held ha (by rw [hs]; decide)] at hcut
  exact ⟨u, v, k, ⟨hd, accept_after_arm ha haccept.2 hstays, haccept, hstays, hasserted⟩, hcut⟩

/-- Without the encoder. -/
theorem cut_plain (hr : p.rleEn = false) (ha : Core.LastArm c₀.core (coreInp c₀ inp) a d) :
    ∃ u k, TriggerOf c₀ inp a d u u ∧
      reordered c₀ inp (d + 1) (run c₀ inp a).csr.pretrigQ.toNat =
        (((raw c₀ inp (d + 1)).drop k).take p.depth, ((run c₀ inp a).csr.pretrigQ.toNat : ℤ)) ∧
      k + (run c₀ inp a).csr.pretrigQ.toNat = (raw c₀ inp u).length ∧ k + p.depth ≤ (raw c₀ inp (d + 1)).length := by
  obtain ⟨hL, hL'⟩ := depthLog2_bounds p
  obtain ⟨hs, hd⟩ := h.completes
  obtain ⟨f, u, k, hw, hacc, hstays⟩ := window_done hs hd
  have hsize : Core.sizeAt c₀.core (coreInp c₀ inp) (d + 1) = p.depth := by
    rw [Core.sizeAt, ← core_run, h.windows.2, Core.sliceSize_one hL hL']
    rfl
  have hpre : Core.preAt c₀.core (coreInp c₀ inp) d = (run c₀ inp a).csr.pretrigQ.toNat := by
    rw [Core.preAt, ← core_run, h.windows.1, Core.pretrigOf_one hL hL']
    exact congrArg BitVec.toNat (pretrigQ_held ha (by rw [hs]; decide))
  have hfire : (run c₀ inp u).trigFire (inp u) = true := by
    have := (acceptsAt_iff.mp hacc).1
    rwa [coreTrig, hr, if_neg (by decide)] at this
  have hlen : ∀ m, (raw c₀ inp m).length = (Core.presented (coreInp c₀ inp) m).length := fun m => by
    rw [← storedWords_plain hr, storedWords, List.length_map]
  have hpos := hw.trig_pos
  have hlast := hw.last
  have hread := hw.read_back
  rw [hsize] at hlast hread
  rw [hpre] at hpos hread
  refine ⟨u, k, ⟨hd, accept_after_arm ha hacc hstays, ⟨hw.u_lt, hacc⟩, hstays, Or.inl rfl, hfire⟩, ?_,
    by rw [hlen]; exact hpos, by rw [hlen]; exact hlast⟩
  rw [reordered, reorderWindow_map, core_run, hread, ← storedWords_plain hr, storedWords, List.map_take,
    List.map_drop]

end OnlyWindow

/-- The exported list of a capture that completed in cycle `d`: the samples of the store
ticks from number `k` on, in acquisition order, the trigger of the capture at `trig_pos`. -/
structure TimeOrdered (c₀ : Capture p) (inp : ℕ → CaptureIn p) (a d u v k : ℕ) (cap : Host.Capture) : Prop where
  trigger : TriggerOf c₀ inp a d u v
  cut : Cut (raw c₀ inp (d + 1)) k (raw c₀ inp v).length (cap.samples, cap.trigPos.toNat)

/-- With the pretrigger count of the register the host puts a single window in order. -/
theorem OnlyWindow.timeOrdered {d : ℕ} (h : OnlyWindow c₀ inp a n d)
    (ha : Core.LastArm c₀.core (coreInp c₀ inp) a n) (hfit : p.rleEn = true → p.depthLog2 ≤ p.probeW) :
    ∃ u v k, TimeOrdered c₀ inp a d u v k (captureOf (run c₀ inp n).core (wholeBuffer (run c₀ inp n).core)
      (run c₀ inp a).csr.pretrigQ.toNat) := by
  have had := ha.restrict h.after h.before.le
  rw [captureOf_frozen h.frozen]
  cases hr : p.rleEn with
  | true =>
    obtain ⟨u, v, k, htrig, hcut⟩ := h.cut_encoded hr (hfit hr) had
    refine ⟨u, v, k, htrig, ?_⟩
    rw [captureOf_encoded hr, ← h.reordered_eq]
    exact hcut
  | false =>
    obtain ⟨u, k, htrig, hord, hpos, hlen⟩ := h.cut_plain hr had
    refine ⟨u, u, k, htrig, ?_⟩
    have hpre : (run c₀ inp a).csr.pretrigQ.toNat < p.depth := (run c₀ inp a).csr.pretrigQ.isLt
    have htaken : (((raw c₀ inp (d + 1)).drop k).take p.depth).length = p.depth := by
      rw [List.length_take, List.length_drop]
      omega
    rw [h.reordered_eq] at hord
    simp only [captureOf, timeOrder, hr, Bool.false_eq_true, ↓reduceIte, hord, Int.toNat_natCast]
    exact ⟨by rw [htaken], hpos, by rw [htaken]; exact hpre⟩

end Capture

end FpgaScope
