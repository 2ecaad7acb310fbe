import FpgaScope.Capture.Status
import FpgaScope.Core.Recorded
import FpgaScope.Host.Damage
import FpgaScope.Lib.Rotation

/-! The windows of a capture in the list `decode_drain` returns. It reorders the whole
buffer around the trigger of the last window; the documented reconstruction reorders each
slice around the trigger that the header gives for its window. -/

namespace FpgaScope

open Rotation

variable {p : Params}

/-! ### Addresses in listing order -/

namespace Host

variable (core : Core p.storeW p.depthLog2 p.tsW)

/-- The trigger address of window `w` in the header. -/
def metaTrig (w : ℕ) : ℕ := ((windowMeta (core.uWinMeta.mem (BitVec.ofNat 8 w))).setWidth 15).toNat

/-- The wrap flag of window `w` in the header. -/
def metaWrapped (w : ℕ) : Bool := (windowMeta (core.uWinMeta.mem (BitVec.ofNat 8 w))).getLsbD 15

/-- Words of a slice. -/
def sliceLen : ℕ := Core.sliceSize p.depthLog2 core.windowsQ

/-- The buffer addresses in the order in which `decode_drain` lists their words. -/
def listing (pretrigEff : ℤ) : List ℕ :=
  (reorderWindow (List.range p.depth) core.trigIndex.toNat core.wrapped pretrigEff).1

/-- The addresses of slice `w` in the documented order. -/
def documented (pretrigEff : ℤ) (w : ℕ) : List ℕ :=
  (reorderWindow ((List.range (sliceLen core)).map fun o => w * sliceLen core + o)
    (metaTrig core w - (w * sliceLen core : ℕ)) (metaWrapped core w) pretrigEff).1

/-- Each window is listed in the documented order, whatever is listed in between: no two
of its samples are out of time order. -/
def InOrder (pretrigEff : ℤ) : Prop := ∀ w < core.windowsDone.toNat,
  (listing core pretrigEff).filter (fun a => decide (a / sliceLen core = w)) = documented core pretrigEff w

/-- Each window is listed in the documented order and in one piece. -/
def InBlocks (pretrigEff : ℤ) : Prop := ∀ w < core.windowsDone.toNat,
  documented core pretrigEff w <:+: listing core pretrigEff

variable {core}

theorem meta_of_entry {w : ℕ} {trig : BitVec p.depthLog2}
    (h : core.uWinMeta.mem (BitVec.ofNat 8 w) = BitVec.cons true trig) :
    metaTrig core w = trig.toNat ∧ metaWrapped core w = true := by
  have hle := p.depthLog2_le
  have hlt : trig.toNat < 2 ^ 15 := trig.isLt.trans_le (Nat.pow_le_pow_right (by norm_num) hle)
  rw [metaTrig, metaWrapped, h, windowMeta, BitVec.setWidth_cons, BitVec.setWidth_cons, BitVec.getLsbD_cons,
    BitVec.getLsbD_cons, if_pos rfl, if_pos rfl, BitVec.toNat_setWidth, Nat.mod_eq_of_lt hlt]
  exact ⟨rfl, rfl⟩

/-- A capture that is complete: every slice wrapped around a trigger inside it, the
registers of the last window still in place. -/
structure Finished (core : Core p.storeW p.depthLog2 p.tsW) (pre m : ℕ) : Prop where
  blocks : m * sliceLen core = p.depth
  pos : 1 ≤ core.windowsDone.toNat
  fits : core.windowsDone.toNat ≤ m
  single : core.windowsDone.toNat = 1 → m = 1
  pre_lt : pre < sliceLen core
  wrapped : ∀ w < core.windowsDone.toNat, metaWrapped core w = true
  slot : ∀ w < core.windowsDone.toNat,
    w * sliceLen core ≤ metaTrig core w ∧ metaTrig core w < (w + 1) * sliceLen core
  last : core.trigIndex.toNat = metaTrig core (core.windowsDone.toNat - 1)
  lastWrapped : core.wrapped = true

namespace Finished

variable {pre m : ℕ} (h : Finished core pre m)
include h

theorem documented_eq {w : ℕ} (hw : w < core.windowsDone.toNat) : documented core pre w =
    rotated (w * sliceLen core) (sliceLen core)
      (metaTrig core w - w * sliceLen core + (sliceLen core - pre)) := by
  have hlt := h.pre_lt
  have hslot := h.slot w hw
  have hread := reorderWindow_wrapped (fun o => w * sliceLen core + o) (sliceLen core)
    (metaTrig core w - w * sliceLen core) pre (metaTrig core w - w * sliceLen core + (sliceLen core - pre))
    (by omega) (by congr 1; omega)
  rw [Nat.cast_sub hslot.1] at hread
  rw [documented, h.wrapped w hw, hread, rotated]

theorem listing_eq : listing core pre =
    rotated 0 p.depth (core.trigIndex.toNat + (p.depth - pre)) := by
  have hlt := h.pre_lt
  have hle : sliceLen core ≤ p.depth := by
    rw [← h.blocks]
    exact Nat.le_mul_of_pos_left _ (h.pos.trans h.fits)
  have hread := reorderWindow_wrapped (fun o => o) p.depth core.trigIndex.toNat pre
    (core.trigIndex.toNat + (p.depth - pre)) (by omega) (by congr 1; omega)
  rw [List.map_id'] at hread
  rw [listing, h.lastWrapped, hread, rotated]
  simp only [Nat.zero_add]

/-- With one window the two orders are one. -/
theorem documented_single (hone : core.windowsDone.toNat = 1) : documented core pre 0 = listing core pre := by
  have hblocks := h.blocks
  rw [h.single hone, Nat.one_mul] at hblocks
  rw [h.documented_eq (by omega), h.listing_eq, h.last, hone, Nat.sub_self, Nat.zero_mul, hblocks]
  rfl

/-- The block and the slot in it where the listing begins. -/
theorem start_cases (htwo : 2 ≤ core.windowsDone.toNat) : ∃ q e, q < m ∧ e < sliceLen core ∧
    listing core pre = rotated 0 (m * sliceLen core) (q * sliceLen core + e) ∧
    (((core.windowsDone.toNat - 1) * sliceLen core + pre ≤ core.trigIndex.toNat ∧
        q = core.windowsDone.toNat - 1 ∧
        e = core.trigIndex.toNat - ((core.windowsDone.toNat - 1) * sliceLen core + pre)) ∨
      (core.trigIndex.toNat < (core.windowsDone.toNat - 1) * sliceLen core + pre ∧
        q + 2 = core.windowsDone.toNat)) := by
  have hlt := h.pre_lt
  have hfits := h.fits
  obtain ⟨q, hq⟩ : ∃ q, core.windowsDone.toNat = q + 2 := ⟨core.windowsDone.toNat - 2, by omega⟩
  have hslot := h.slot (core.windowsDone.toNat - 1) (by omega)
  have hroom : (q + 2) * sliceLen core ≤ m * sliceLen core := Nat.mul_le_mul_right _ (by omega)
  have hlist := h.listing_eq
  rw [← rotated_mod, ← h.blocks] at hlist
  have hone : (q + 1) * sliceLen core = q * sliceLen core + sliceLen core := Nat.succ_mul _ _
  have htwo : (q + 2) * sliceLen core = (q + 1) * sliceLen core + sliceLen core := Nat.succ_mul _ _
  rw [← h.last, hq, show q + 2 - 1 = q + 1 by omega, show q + 1 + 1 = q + 2 by rfl] at hslot
  have hstart : (core.trigIndex.toNat + (m * sliceLen core - pre)) % (m * sliceLen core) =
      core.trigIndex.toNat - pre := by
    rw [show core.trigIndex.toNat + (m * sliceLen core - pre) =
      core.trigIndex.toNat - pre + m * sliceLen core by omega, Nat.add_mod_right, Nat.mod_eq_of_lt (by omega)]
  rw [hstart] at hlist
  rw [hq, show q + 2 - 1 = q + 1 by omega]
  rcases Nat.lt_or_ge core.trigIndex.toNat ((q + 1) * sliceLen core + pre) with hbefore | hge
  · refine ⟨q, core.trigIndex.toNat - pre - q * sliceLen core, by omega, by omega, ?_,
      Or.inr ⟨hbefore, rfl⟩⟩
    rw [hlist]
    congr 1
    omega
  · refine ⟨q + 1, _, by omega, ?_, ?_, Or.inl ⟨hge, rfl, rfl⟩⟩
    · omega
    · rw [hlist]
      congr 1
      omega

/-- The oldest sample of a slice is in its first slot exactly when the trigger is `pre`
slots in. -/
theorem oldest_first {w : ℕ} (hw : w < core.windowsDone.toNat) :
    (metaTrig core w - w * sliceLen core + (sliceLen core - pre)) % sliceLen core = 0 ↔
      metaTrig core w = w * sliceLen core + pre := by
  have hlt := h.pre_lt
  obtain ⟨hle, hend⟩ := h.slot w hw
  rw [Nat.succ_mul] at hend
  obtain ⟨r, hr⟩ := Nat.exists_eq_add_of_le hle
  rw [hr, Nat.add_sub_cancel_left, Nat.add_left_cancel_iff]
  rcases Nat.lt_trichotomy r pre with hbefore | rfl | hafter
  · rw [Nat.mod_eq_of_lt (by omega)]
    omega
  · rw [show r + (sliceLen core - r) = sliceLen core by omega, Nat.mod_self]
    exact iff_of_true rfl rfl
  · rw [show r + (sliceLen core - pre) = r - pre + sliceLen core by omega, Nat.add_mod_right,
      Nat.mod_eq_of_lt (by omega)]
    omega

/-- Every slot of the buffer is in slice 0 when there is only one. -/
theorem inOrder_single (hone : core.windowsDone.toNat = 1) : InOrder core pre := by
  intro w hw
  obtain rfl : w = 0 := by omega
  have hblocks := h.blocks
  rw [h.single hone, Nat.one_mul] at hblocks
  have hpos := h.pre_lt
  rw [h.documented_single hone, List.filter_eq_self]
  intro a ha
  rw [h.listing_eq, rotated, List.mem_map] at ha
  obtain ⟨i, -, rfl⟩ := ha
  rw [decide_eq_true_iff, Nat.zero_add, hblocks]
  exact Nat.div_eq_of_lt (Nat.mod_lt _ (by omega))

/-- When the windows are listed in order. -/
theorem inOrder_iff : InOrder core pre ↔ core.windowsDone.toNat = 1 ∨
    (∀ w < core.windowsDone.toNat - 1, metaTrig core w = w * sliceLen core + pre) ∧
      (core.windowsDone.toNat - 1) * sliceLen core + pre ≤ metaTrig core (core.windowsDone.toNat - 1) := by
  rcases Nat.eq_or_lt_of_le h.pos with hone | htwo
  · exact iff_of_true (h.inOrder_single hone.symm) (Or.inl hone.symm)
  · obtain ⟨q, e, hq, he, hlist, hcase⟩ := h.start_cases htwo
    have hlt := h.pre_lt
    have hfits := h.fits
    have hslot := h.slot (core.windowsDone.toNat - 1) (by omega)
    rw [h.last] at hcase
    have hwindow : ∀ w < core.windowsDone.toNat,
        ((listing core pre).filter (fun a => decide (a / sliceLen core = w)) = documented core pre w ↔
          (if w = q then e else 0) =
            (metaTrig core w - w * sliceLen core + (sliceLen core - pre)) % sliceLen core) := by
      intro w hw
      rw [hlist, filter_block hq he (by omega), h.documented_eq hw, rotated_inj (by omega),
        Nat.mod_eq_of_lt (show (if w = q then e else 0) < sliceLen core by split <;> omega)]
    constructor
    · intro hall
      refine Or.inr ?_
      rcases hcase with ⟨hge, rfl, -⟩ | ⟨hbefore, hq2⟩
      · refine ⟨fun w hw => (h.oldest_first (by omega)).mp ?_, hge⟩
        have hw' := (hwindow w (by omega)).mp (hall w (by omega))
        rw [if_neg (by omega)] at hw'
        exact hw'.symm
      · have hw' := (hwindow (core.windowsDone.toNat - 1) (by omega)).mp (hall _ (by omega))
        rw [if_neg (by omega)] at hw'
        have := (h.oldest_first (by omega)).mp hw'.symm
        omega
    · rintro (hone | ⟨hall, hge⟩) w hw
      · omega
      · rw [hwindow w hw]
        rcases hcase with ⟨-, rfl, rfl⟩ | ⟨hbefore, -⟩
        · by_cases hlast : w = core.windowsDone.toNat - 1
          · subst hlast
            rw [if_pos rfl, show metaTrig core (core.windowsDone.toNat - 1) -
                (core.windowsDone.toNat - 1) * sliceLen core + (sliceLen core - pre) =
              metaTrig core (core.windowsDone.toNat - 1) -
                ((core.windowsDone.toNat - 1) * sliceLen core + pre) + sliceLen core by omega,
              Nat.add_mod_right, Nat.mod_eq_of_lt he]
          · rw [if_neg hlast]
            exact ((h.oldest_first hw).mpr (hall w (by omega))).symm
        · omega

/-- When each window is listed in one piece. -/
theorem inBlocks_iff : InBlocks core pre ↔ core.windowsDone.toNat = 1 ∨
    ∀ w < core.windowsDone.toNat, metaTrig core w = w * sliceLen core + pre := by
  have hlt := h.pre_lt
  have hfits := h.fits
  rcases Nat.eq_or_lt_of_le h.pos with hone | htwo
  · refine iff_of_true (fun w hw => ?_) (Or.inl hone.symm)
    obtain rfl : w = 0 := by omega
    rw [h.documented_single hone.symm]
  · obtain ⟨q, e, hq, he, hlist, hcase⟩ := h.start_cases htwo
    rw [h.last] at hcase
    constructor
    · intro hall
      refine Or.inr fun w hw => (h.oldest_first hw).mp ?_
      have hw' := hall w hw
      rw [h.documented_eq hw, hlist] at hw'
      exact infix_block (by omega) (by omega) (by omega) hw'
    · rintro (hone | hall) w hw
      · omega
      · have hlast := hall (core.windowsDone.toNat - 1) (by omega)
        rcases hcase with ⟨-, rfl, rfl⟩ | ⟨hbefore, -⟩
        · rw [h.documented_eq hw, hlist, ← rotated_mod, (h.oldest_first hw).mpr (hall w hw), hlast,
            Nat.sub_self, Nat.add_zero]
          exact block_infix hq (by omega)
        · omega

/-- The trigger of a window is `pre` samples behind its oldest one. -/
theorem documented_trigger {w : ℕ} (hw : w < core.windowsDone.toNat) :
    (documented core pre w)[pre]? = some (metaTrig core w) := by
  have hlt := h.pre_lt
  obtain ⟨hle, hend⟩ := h.slot w hw
  rw [Nat.succ_mul] at hend
  rw [h.documented_eq hw, rotated_get hlt,
    show metaTrig core w - w * sliceLen core + (sliceLen core - pre) + pre =
      metaTrig core w - w * sliceLen core + sliceLen core by omega,
    Nat.add_mod_right, Nat.mod_eq_of_lt (by omega), Nat.add_sub_cancel' hle]

end Finished

/-- The samples `decode_drain` returns, by the addresses it takes them from. -/
theorem samples_listing (hrle : p.rleEn = false) (pretrigEff : ℤ) :
    (captureOf core (wholeBuffer core) pretrigEff).samples =
      (listing core pretrigEff).map fun a => (core.bufAt a).toNat := by
  simp only [captureOf, timeOrder, hrle, Bool.false_eq_true, ↓reduceIte, wholeBuffer, listing,
    reorderWindow_map]
  rfl

end Host

/-! ### A parked capture -/

namespace Capture

open Host Protocol

/-- `PRETRIG_EFF` of the core in cycle `n`. -/
def pretrigEffAt (c₀ : Capture p) (inp : ℕ → CaptureIn p) (n : ℕ) : ℕ :=
  ((run c₀ inp n).core.pretrigEff (coreInp c₀ inp n)).toNat

variable {c₀ : Capture p} {inp : ℕ → CaptureIn p} {a n : ℕ}

theorem recorded_parked (ha : Core.LastArm c₀.core (coreInp c₀ inp) a n) (hpark : parkedAt c₀ inp n)
    {w : ℕ} (hw : w < (run c₀ inp n).core.windowsDone.toNat) :
    ∃ trig u d k, a < d ∧ Core.Recorded c₀.core (coreInp c₀ inp) n w (run c₀ inp n).core.windowsQ
      (pretrigEffAt c₀ inp n) trig u d k := by
  obtain ⟨hL, hL'⟩ := depthLog2_bounds p
  have hcore := core_run c₀ inp n
  have hq : (run c₀ inp n).core.windowsQ = (coreInp c₀ inp a).windows := by rw [hcore, ha.windowsQ]
  obtain ⟨hpos, hle⟩ := windows_bounds c₀ inp a
  rw [hcore] at hw
  obtain ⟨trig, u, d, k, had, hrec⟩ := Core.recorded_run hL hL' (pretrigHeld c₀ inp) ha hpos hle hw
  have hheld := configOut_locked hrec.before.le fun v h₁ h₂ =>
    busy_since_arm ha hpark.busy v (by omega) h₂.le
  have hpre : (coreInp c₀ inp d).pretrig = (coreInp c₀ inp n).pretrig :=
    (congrArg ConfigOut.pretrig hheld).symm
  have hsh := shape_at c₀ inp n
  refine ⟨trig, u, d, k, had, ?_⟩
  rw [pretrigEffAt, Core.pretrigEff_toNat hL hL' hsh, hq, ← hpre]
  exact hrec

/-- From the completion of the last window on the registers stand still. -/
theorem frozen_last (ha : Core.LastArm c₀.core (coreInp c₀ inp) a n) (hpark : parkedAt c₀ inp n) {d : ℕ}
    (had : a < d + 1) (hd : d < n) (hst : stAt c₀ inp (d + 1) = .done)
    (hdone : (run c₀ inp (d + 1)).core.windowsDone.toNat = (run c₀ inp n).core.windowsDone.toNat) :
    (run c₀ inp (d + 1)).core.Frozen (run c₀ inp n).core := by
  have hqd : (run c₀ inp (d + 1)).core.windowsQ = (coreInp c₀ inp a).windows := by
    rw [core_run, (ha.restrict had hd).windowsQ]
  have hrest : (run c₀ inp (d + 1)).core.Rests := by
    refine Or.inr ⟨hst, ?_⟩
    rw [BitVec.lt_def, hdone, hqd, parked_count ha hpark]
    exact lt_irrefl _
  refine (rests_frozen hrest n hd fun v h₁ h₂ => ?_).2
  rw [core_run]
  exact ha.quiet v (by omega) h₂

/-- A parked capture is complete as the host sees it. -/
theorem finished_parked (hpark : parkedAt c₀ inp n) : Finished (run c₀ inp n).core (pretrigEffAt c₀ inp n)
    (Core.weff p.depthLog2 (run c₀ inp n).core.windowsQ) := by
  obtain ⟨hL, hL'⟩ := depthLog2_bounds p
  have hcore := core_run c₀ inp n
  obtain ⟨a, ha⟩ := lastArm_of_busy hpark.busy
  obtain ⟨hpos, hle⟩ := windows_bounds c₀ inp a
  have hcount := parked_count ha hpark
  have hq := windowsQ_armed ha
  have hsh := shape_at c₀ inp n
  have hmeta : ∀ w < (run c₀ inp n).core.windowsDone.toNat, ∃ trig u d k, a < d ∧
      Core.Recorded c₀.core (coreInp c₀ inp) n w (run c₀ inp n).core.windowsQ
        (pretrigEffAt c₀ inp n) trig u d k ∧
      metaTrig (run c₀ inp n).core w = trig.toNat ∧ metaWrapped (run c₀ inp n).core w = true := by
    intro w hw
    obtain ⟨trig, u, d, k, had, hrec⟩ := recorded_parked ha hpark hw
    have hentry := hrec.entry
    rw [← hcore] at hentry
    exact ⟨trig, u, d, k, had, hrec, meta_of_entry hentry⟩
  obtain ⟨trig, u, d, k, had, hrec, htrig, -⟩ :=
    hmeta ((run c₀ inp n).core.windowsDone.toNat - 1) (by rw [hcount]; omega)
  have hdone := hrec.done
  rw [← core_run] at hdone
  have hfrozen := frozen_last ha hpark (show a < d + 1 by omega) hrec.before hdone.1 (by rw [hdone.2, hcount]; omega)
  have hlatched := hrec.latched
  rw [← core_run] at hlatched
  rw [← hq] at hpos hle hcount
  refine ⟨Core.weff_mul_sliceSize hL hL' _, by rw [hcount]; exact hpos, ?_, fun hone => ?_, ?_, fun w hw => ?_,
    fun w hw => ?_, ?_, ?_⟩
  · have := Nat.le_pow_clog (b := 2) (by norm_num) (run c₀ inp n).core.windowsQ.toNat
    rw [hcount, Core.weff]
    omega
  · have hhalf : 1 ≤ Core.depth p.depthLog2 / 2 := hpos.trans hle
    rw [hcount] at hone
    rw [Core.weff, hone, Nat.clog_one_right, pow_zero]
    omega
  · rw [pretrigEffAt, Core.pretrigEff_toNat hL hL' hsh]
    exact Core.pretrigOf_lt hL hL' _ _
  · obtain ⟨_, _, _, _, -, -, -, hwr⟩ := hmeta w hw
    exact hwr
  · obtain ⟨trig', _, _, _, _, hrec', htrig', -⟩ := hmeta w hw
    rw [htrig']
    exact hrec'.slot
  · rw [hfrozen.trigIndex, hlatched.1, htrig]
  · rw [hfrozen.wrapped, hlatched.2]

/-- The `DRAIN` response to a parked core, as the frame engine sends it. -/
def drainSent (c : Capture p) : List Byte := (drain p (laneBytes p) c.drainReply).sent

/-- The words of window `w` in the documented order are the stream around its trigger. -/
structure Reconstructed (c₀ : Capture p) (inp : ℕ → CaptureIn p) (n w u d k : ℕ) : Prop where
  completes : d < n ∧ stAt c₀ inp (d + 1) = .done ∧ (run c₀ inp (d + 1)).core.windowsDone.toNat = w + 1
  accept : u < d ∧ acceptsAt c₀ inp u = true
  trigger : (documented (run c₀ inp n).core (pretrigEffAt c₀ inp n) w)[pretrigEffAt c₀ inp n]? =
    some (metaTrig (run c₀ inp n).core w)
  words : (documented (run c₀ inp n).core (pretrigEffAt c₀ inp n) w).map (run c₀ inp n).core.bufAt =
    ((Core.presented (coreInp c₀ inp) (d + 1)).drop k).take (sliceLen (run c₀ inp n).core)
  word : (run c₀ inp n).core.bufAt (metaTrig (run c₀ inp n).core w) = (coreInp c₀ inp u).sampleData

theorem reconstructed_parked (hpark : parkedAt c₀ inp n) {w : ℕ}
    (hw : w < (run c₀ inp n).core.windowsDone.toNat) : ∃ u d k, Reconstructed c₀ inp n w u d k := by
  have hfin := finished_parked hpark
  have hcore := core_run c₀ inp n
  obtain ⟨a, ha⟩ := lastArm_of_busy hpark.busy
  obtain ⟨trig, u, d, k, -, hrec⟩ := recorded_parked ha hpark hw
  have hentry := hrec.entry
  have hdone := hrec.done
  have haccept := hrec.trigger.accept
  have horder := hrec.order
  have hword := hrec.word
  rw [← hcore] at hentry horder
  rw [← core_run] at hdone haccept
  obtain ⟨htrig, hwrapped⟩ := meta_of_entry hentry
  have htrigger := hfin.documented_trigger hw
  have hwords : (documented (run c₀ inp n).core (pretrigEffAt c₀ inp n) w).map (run c₀ inp n).core.bufAt =
      ((Core.presented (coreInp c₀ inp) (d + 1)).drop k).take (sliceLen (run c₀ inp n).core) := by
    have hmap := congrArg Prod.fst (reorderWindow_map (run c₀ inp n).core.bufAt
      ((List.range (sliceLen (run c₀ inp n).core)).map fun o => w * sliceLen (run c₀ inp n).core + o)
      (trig.toNat - (w * sliceLen (run c₀ inp n).core : ℕ)) true (pretrigEffAt c₀ inp n))
    rw [List.map_map] at hmap
    rw [documented, htrig, hwrapped]
    exact hmap.symm.trans (congrArg Prod.fst horder)
  refine ⟨u, d, k, ⟨hrec.before, hdone⟩, ⟨hrec.trigger.lt, haccept⟩, htrigger, hwords, ?_⟩
  have hget := congrArg (fun l => l[pretrigEffAt c₀ inp n]?) hwords
  simp only [List.getElem?_map, htrigger, Option.map_some] at hget
  exact Option.some.inj (hget.trans hword)

/-- What `decode_drain` makes of the response to a complete capture. It lists the windows in
order when there is only one, or when every window before the last took its trigger
`PRETRIG_EFF` words into its slice and the last not before that. -/
theorem decode_windows (c₀ : Capture p) (inp : ℕ → CaptureIn p) (n : ℕ) (hrle : p.rleEn = false)
    (hpark : parkedAt c₀ inp n) :
    (∃ cap, decodeDrain (parseAll (run c₀ inp n).drainSent) p.probeW (pretrigEffAt c₀ inp n) = .ok cap ∧
      cap.trigPos = pretrigEffAt c₀ inp n ∧
      cap.samples = (listing (run c₀ inp n).core (pretrigEffAt c₀ inp n)).map
        fun a => ((run c₀ inp n).core.bufAt a).toNat) ∧
    (∀ w < (run c₀ inp n).core.windowsDone.toNat, ∃ u d k, Reconstructed c₀ inp n w u d k) ∧
    (InOrder (run c₀ inp n).core (pretrigEffAt c₀ inp n) ↔
      (run c₀ inp n).core.windowsDone.toNat = 1 ∨
      (∀ w < (run c₀ inp n).core.windowsDone.toNat - 1, metaTrig (run c₀ inp n).core w =
        w * sliceLen (run c₀ inp n).core + pretrigEffAt c₀ inp n) ∧
      ((run c₀ inp n).core.windowsDone.toNat - 1) * sliceLen (run c₀ inp n).core + pretrigEffAt c₀ inp n ≤
        metaTrig (run c₀ inp n).core ((run c₀ inp n).core.windowsDone.toNat - 1)) ∧
    (InBlocks (run c₀ inp n).core (pretrigEffAt c₀ inp n) ↔
      (run c₀ inp n).core.windowsDone.toNat = 1 ∨
      ∀ w < (run c₀ inp n).core.windowsDone.toNat, metaTrig (run c₀ inp n).core w =
        w * sliceLen (run c₀ inp n).core + pretrigEffAt c₀ inp n) := by
  have hfin := finished_parked hpark
  refine ⟨⟨captureOf _ _ _, ?_, ?_, samples_listing hrle _⟩, fun w hw => reconstructed_parked hpark hw,
    hfin.inOrder_iff, hfin.inBlocks_iff⟩
  · have hwhole : (run c₀ inp n).core.Whole := by
      have := p.probeW_le
      exact Or.inl (by rw [Params.storeW, hrle, if_neg (by decide)]; exact this)
    rw [drainSent, (run c₀ inp n).drain_sent_iff.mpr hwhole, decodeDrain_dump]
  · have hlen : (wholeBuffer (run c₀ inp n).core).length ≠ 0 := by
      have : 0 < p.depth := Nat.two_pow_pos _
      rw [wholeBuffer, List.length_map, List.length_range]
      omega
    simp only [captureOf, timeOrder, hrle, Bool.false_eq_true, ↓reduceIte, hfin.lastWrapped]
    exact reorderWindow_trigger _ _ _ hlen

/-- A single window is listed in order. -/
theorem windowsIn_listed : ∃ n, parkedAt (blank oneBit) (windowsIn 1) n ∧
    InOrder (run (blank oneBit) (windowsIn 1) n).core (pretrigEffAt (blank oneBit) (windowsIn 1) n) := by
  obtain ⟨d, hd, hparks⟩ := windowsIn_parks 1 (by decide)
  obtain ⟨harm, hpark⟩ := hparks d le_rfl
  have hcount := parked_count harm hpark
  have hone : (run (blank oneBit) (windowsIn 1) d).core.windowsDone.toNat = 1 := by
    rw [hcount]
    decide
  exact ⟨d, hpark, (decode_windows _ _ d rfl hpark).2.2.1.mpr (Or.inl hone)⟩

theorem windowsIn_pretrig {v : BitVec 32} {d : ℕ}
    (harm : Core.LastArm (blank oneBit).core (coreInp (blank oneBit) (windowsIn v)) 1 d)
    (hpark : parkedAt (blank oneBit) (windowsIn v) d) :
    pretrigEffAt (blank oneBit) (windowsIn v) d = 0 := by
  have hheld := configOut_locked harm.lt fun u h₁ h₂ => busy_since_arm harm hpark.busy u h₁ h₂.le
  have hpre : (coreInp (blank oneBit) (windowsIn v) d).pretrig = 0 := congrArg ConfigOut.pretrig hheld
  rw [pretrigEffAt, Core.pretrigEff, hpre]
  exact congrArg BitVec.toNat BitVec.zero_ushiftRight

/-- Of 128 windows the first takes its trigger one word into its slice, with no history
asked for, and is listed out of order. -/
theorem windowsIn_not_listed :
    ¬ ∀ (p : Params) (c₀ : Capture p) (inp : ℕ → CaptureIn p) (n : ℕ), p.rleEn = false →
      parkedAt c₀ inp n → ∃ cap,
        decodeDrain (parseAll (run c₀ inp n).drainSent) p.probeW (pretrigEffAt c₀ inp n) = .ok cap ∧
        cap.samples = (listing (run c₀ inp n).core (pretrigEffAt c₀ inp n)).map
          (fun a => ((run c₀ inp n).core.bufAt a).toNat) ∧
        InOrder (run c₀ inp n).core (pretrigEffAt c₀ inp n) := by
  intro h
  obtain ⟨d₀, -, hparks⟩ := windowsIn_parks 128 (by decide)
  obtain ⟨d, hd, h6⟩ : ∃ d, d₀ ≤ d ∧ 6 ≤ d := ⟨max d₀ 6, le_max_left _ _, le_max_right _ _⟩
  obtain ⟨harm, hpark⟩ := hparks d hd
  obtain ⟨-, -, -, hin⟩ := h oneBit (blank oneBit) (windowsIn 128) d rfl hpark
  have hcount := parked_count harm hpark
  have hmany : (run (blank oneBit) (windowsIn 128) d).core.windowsDone.toNat = 128 := by
    rw [hcount]
    decide
  have hentry : (run (blank oneBit) (windowsIn 128) d).core.uWinMeta.mem (BitVec.ofNat 8 0) =
      BitVec.cons true 1 := by
    obtain ⟨hpos, hle⟩ := windows_bounds (blank oneBit) (windowsIn 128) 1
    have hkept := (Core.entry_kept (by decide) (by decide) harm hpos hle (show 1 < 6 by decide) h6
      (show 0 < _ by rw [← core_run]; decide)).2
    rw [← core_run, ← core_run] at hkept
    rw [hkept]
    decide
  rcases (finished_parked hpark).inOrder_iff.mp hin with hone | ⟨hall, -⟩
  · omega
  · have hfirst := hall 0 (by omega)
    rw [(meta_of_entry hentry).1, Nat.zero_mul, Nat.zero_add, windowsIn_pretrig harm hpark] at hfirst
    cases hfirst

end Capture

end FpgaScope
