import FpgaScope.Core.Completed
import FpgaScope.Core.Rest
import FpgaScope.Rtl.CoreFchk

/-! The assertions of `scope_core_fchk`, for every width and depth and without a bound on the run.
The checker's own reduction is carried through: the shadow is the word in the buffer at `trig_index`
from the cycle after the trigger until the window is over. -/

namespace FpgaScope.CheckedCore

open Clocked Core

variable {W L T : ℕ}

/-- While a window is past its trigger the shadow is where the trigger sample is. -/
structure Tracked (s : CheckedCore W L T) : Prop where
  confined : s.uFchk.fShadowOff.toNat < sliceSize L s.core.windowsQ
  target : s.uFchk.fTarget.toNat < sliceSize L s.core.windowsQ
  budget : s.core.postRemaining.toNat ≤ s.uFchk.fTarget.toNat
  distance : s.core.offset.toNat = (s.uFchk.fShadowOff.toNat +
    (s.uFchk.fTarget.toNat - s.core.postRemaining.toNat + 1)) % sliceSize L s.core.windowsQ
  slot : s.core.trigIndex = s.core.base ||| s.uFchk.fShadowOff
  data : s.core.uBuf.mem s.core.trigIndex = s.uFchk.fShadowData

/-- What holds in every cycle from the first reset on. -/
structure Sound (s : CheckedCore W L T) : Prop where
  shape : Shape s.core
  live : s.core.st = .triggered ∨ s.core.st = .done → s.uFchk.fShadowValid = true
  tracked : s.core.st = .triggered ∨ s.core.st = .done → Tracked s
  spent : s.core.st = .done → s.core.postRemaining = 0

section
variable (hL : 1 ≤ L) (hL' : L ≤ 16)
include hL hL'

theorem slot_toNat {c : Core W L T} (h : Shape c) {o : BitVec L} (ho : o.toNat < sliceSize L c.windowsQ) :
    (c.base ||| o).toNat = c.base.toNat + o.toNat := by
  have h' : Shape { c with offset := o } := ⟨h.weff, h.mask, ho, h.base, h.idx, h.count, h.count_done⟩
  exact wrAddrW_toNat hL hL' h'

/-- Two offsets of one slice are two slots. -/
theorem slot_ne {c : Core W L T} (h : Shape c) {o : BitVec L} (ho : o.toNat < sliceSize L c.windowsQ)
    (hne : c.offset ≠ o) : wrAddrW c ≠ c.base ||| o := by
  intro he
  have hnat := congrArg BitVec.toNat he
  rw [wrAddrW_toNat hL hL' h, slot_toNat hL hL' h ho] at hnat
  exact hne (BitVec.eq_of_toNat_eq (by omega))

omit hL hL' in
/-- The write offset does not come back to the trigger slot while there is a budget. -/
theorem Tracked.apart {s : CheckedCore W L T} (h : Tracked s) (hpos : s.core.postRemaining ≠ 0) :
    s.core.offset ≠ s.uFchk.fShadowOff := by
  intro he
  have hd := h.distance
  have hlt := h.confined
  have ht := h.target
  have hb := h.budget
  have hne : s.core.postRemaining.toNat ≠ 0 := fun h0 => hpos (BitVec.eq_of_toNat_eq h0)
  rw [he] at hd
  have hturn : s.uFchk.fShadowOff.toNat % sliceSize L s.core.windowsQ ≠ (s.uFchk.fShadowOff.toNat +
      (s.uFchk.fTarget.toNat - s.core.postRemaining.toNat + 1)) % sliceSize L s.core.windowsQ :=
    Ring.mod_ne_of_lt_add (by omega) (by omega)
  rw [Nat.mod_eq_of_lt hlt] at hturn
  exact hturn hd

/-- Samples stored after the trigger leave its slot alone. -/
theorem Tracked.post {s : CheckedCore W L T} (h : Tracked s) (hsh : Shape s.core) (i : CoreIn W L)
    (hst : s.core.st = .triggered) : Tracked { core := datapath s.core i, uFchk := s.uFchk } := by
  have hidx := trigIndex_kept i (show s.core.st ≠ .armed by rw [hst]; decide)
  have hpost := postRemaining_datapath (i := i) hst
  have hnext := postNext_toNat hL s.core i
  have hwr : postWr s.core i = captureWr s.core i := by rw [postWr, hst]; exact Bool.and_true _
  rw [hwr] at hnext
  cases hw : captureWr s.core i with
  | false =>
    rw [hw, Bool.toNat_false, Nat.add_zero] at hnext
    have hoff : (datapath s.core i).offset = s.core.offset := if_neg (by rw [hw]; exact Bool.false_ne_true)
    have hbuf : (datapath s.core i).uBuf.mem = s.core.uBuf.mem := if_neg (by rw [hw]; exact Bool.false_ne_true)
    refine ⟨h.confined, h.target, ?_, ?_, hidx.trans h.slot, ?_⟩
    · change (datapath s.core i).postRemaining.toNat ≤ _
      rw [hpost, hnext]
      exact h.budget
    · change (datapath s.core i).offset.toNat =
        (_ + (_ - (datapath s.core i).postRemaining.toNat + 1)) % _
      rw [hpost, hnext, hoff]
      exact h.distance
    · change (datapath s.core i).uBuf.mem (datapath s.core i).trigIndex = _
      rw [hbuf, hidx]
      exact h.data
  | true =>
    rw [hw, Bool.toNat_true] at hnext
    have hb := h.budget
    have hpos : s.core.postRemaining ≠ 0 := fun h0 => by
      rw [h0] at hnext
      exact absurd hnext (Nat.succ_ne_zero _)
    have hoff : (datapath s.core i).offset = (s.core.offset + 1) &&& s.core.sliceMask := if_pos hw
    have hbuf : (datapath s.core i).uBuf.mem =
        Function.update s.core.uBuf.mem (wrAddrW s.core) i.sampleData := if_pos hw
    refine ⟨h.confined, h.target, ?_, ?_, hidx.trans h.slot, ?_⟩
    · change (datapath s.core i).postRemaining.toNat ≤ s.uFchk.fTarget.toNat
      rw [hpost]
      omega
    · change (datapath s.core i).offset.toNat = (s.uFchk.fShadowOff.toNat +
        (s.uFchk.fTarget.toNat - (datapath s.core i).postRemaining.toNat + 1)) %
          sliceSize L s.core.windowsQ
      rw [hpost, hoff, offset_next hL hL' hsh, h.distance, Nat.mod_add_mod]
      congr 1
      omega
    · change (datapath s.core i).uBuf.mem (datapath s.core i).trigIndex = _
      have hne := slot_ne hL hL' hsh h.confined (h.apart hpos)
      rw [hbuf, hidx, h.slot, Function.update_of_ne hne.symm, ← h.slot]
      exact h.data

/-- The accepted trigger sample goes into the shadow and into its slot. -/
theorem Tracked.trigger {s : CheckedCore W L T} (hsh : Shape s.core) (i : CoreIn W L)
    (hacc : trigAccept s.core i = true) :
    Tracked { core := datapath s.core i
              uFchk := s.fchkStep { rst := false, ports := i } } := by
  have hk : s.fchkStep { rst := false, ports := i } = ⟨true, s.core.offset, i.sampleData,
      s.core.sliceMask.setWidth (L + 1) - (pretrigEff s.core i).setWidth (L + 1)⟩ := by
    rw [fchkStep, if_neg Bool.false_ne_true, if_pos hacc]
  have hw : captureWr s.core i = true := by
    rw [captureWr_filling i (Or.inr (trigAccept_state hacc)), trigAccept_valid hacc]
  have hidx := trigIndex_accepted hacc
  have hpost : (datapath s.core i).postRemaining =
      s.core.sliceMask.setWidth (L + 1) - (pretrigEff s.core i).setWidth (L + 1) := if_pos hacc
  have hoff : (datapath s.core i).offset = (s.core.offset + 1) &&& s.core.sliceMask := if_pos hw
  have hbuf : (datapath s.core i).uBuf.mem =
      Function.update s.core.uBuf.mem (wrAddrW s.core) i.sampleData := if_pos hw
  have hlt := pretrigOf_lt hL hL' i.pretrig s.core.windowsQ
  have hbudget := budget_toNat hL hL' hsh i
  rw [hk]
  refine ⟨hsh.offset_lt, ?_, ?_, ?_, hidx, ?_⟩
  · change BitVec.toNat _ < sliceSize L s.core.windowsQ
    rw [hbudget]
    omega
  · change (datapath s.core i).postRemaining.toNat ≤ _
    rw [hpost]
  · change (datapath s.core i).offset.toNat = (s.core.offset.toNat + (BitVec.toNat _ -
      (datapath s.core i).postRemaining.toNat + 1)) % sliceSize L s.core.windowsQ
    rw [hpost, hoff, offset_next hL hL' hsh, Nat.sub_self, Nat.zero_add]
  · change (datapath s.core i).uBuf.mem (datapath s.core i).trigIndex = _
    rw [hbuf, hidx, Function.update_self]

theorem Sound.reset (s : CheckedCore W L T) (k : CoreFchk W L) :
    Sound { core := s.core.reset, uFchk := { k with fShadowValid := false } } where
  shape := Shape.reset hL hL' s.core
  live hs := by rcases hs with hs | hs <;> cases hs
  tracked hs := by rcases hs with hs | hs <;> cases hs
  spent hs := by cases hs

omit hL hL' in
theorem fchkStep_kept {s : CheckedCore W L T} (i : CoreIn W L) (h : s.core.st = .triggered ∨ s.core.st = .done) :
    s.fchkStep { rst := false, ports := i } = s.uFchk := by
  have hno : trigAccept s.core i = false := trigAccept_of_ne i (by rcases h with h | h <;> rw [h] <;> decide)
  rw [fchkStep, if_neg Bool.false_ne_true, hno, if_neg Bool.false_ne_true, if_neg]
  rcases h with h | h <;> rw [h] <;> decide

/-- What holds in one cycle holds in the next. -/
theorem Sound.step {s : CheckedCore W L T} (h : Sound s) (i : CoreIn W L) :
    Sound (s.step { rst := false, ports := i }) := by
  have hstep : s.step { rst := false, ports := i } =
      { core := Core.step s.core i, uFchk := s.fchkStep { rst := false, ports := i } } := rfl
  have hshape := h.shape.step hL hL' i
  have hm := step_move s.core i
  rw [hstep]
  generalize Core.step s.core i = c' at hm hshape
  cases hm with
  | abort _ | start _ | rearm _ _ _ _ | backlog _ _ _ =>
    refine ⟨hshape, fun hs => ?_, fun hs => ?_, fun hs => ?_⟩
    all_goals simp [startRun, nextWindow] at hs
  | rest _ hs _ | fill _ hs _ | circulate _ hs _ =>
    refine ⟨hshape, fun hs' => ?_, fun hs' => ?_, fun hs' => ?_⟩
    all_goals simp [hs] at hs'
  | trigger _ hs hacc =>
    refine ⟨hshape, fun _ => ?_, fun _ => ?_, fun hs' => absurd hs' (by simp)⟩
    · rw [fchkStep, if_neg Bool.false_ne_true, if_pos hacc]
    · have ht := Tracked.trigger hL hL' h.shape i hacc
      exact ⟨ht.confined, ht.target, ht.budget, ht.distance, ht.slot, ht.data⟩
  | post _ hs _ =>
    rw [fchkStep_kept i (Or.inl hs)]
    exact ⟨hshape, fun _ => h.live (Or.inl hs), fun _ => (h.tracked (Or.inl hs)).post hL hL' h.shape i hs,
      fun hs' => by simp [hs] at hs'⟩
  | complete _ hs hnext =>
    rw [fchkStep_kept i (Or.inl hs)]
    refine ⟨hshape, fun _ => h.live (Or.inl hs), fun _ => ?_, fun _ => ?_⟩
    · have ht := (h.tracked (Or.inl hs)).post hL hL' h.shape i hs
      exact ⟨ht.confined, ht.target, ht.budget, ht.distance, ht.slot, ht.data⟩
    · exact (postRemaining_datapath hs).trans hnext
  | park _ hs _ _ =>
    have hkept := datapath_parked i (Or.inr hs)
    have hw := captureWr_quiet i (Or.inr hs)
    have hoff : (datapath s.core i).offset = s.core.offset := if_neg (by rw [hw]; exact Bool.false_ne_true)
    have hpost : (datapath s.core i).postRemaining = s.core.postRemaining := by
      have hno : trigAccept s.core i = false := trigAccept_of_ne i (by rw [hs]; decide)
      change (if trigAccept s.core i then _ else if postWr s.core i then _ else s.core.postRemaining) = _
      rw [hno, postWr, hw, Bool.false_and, if_neg Bool.false_ne_true, if_neg Bool.false_ne_true]
    rw [fchkStep_kept i (Or.inr hs)]
    refine ⟨hshape, fun _ => h.live (Or.inr hs), fun _ => ?_, fun _ => hpost.trans (h.spent hs)⟩
    obtain ⟨hc, ht, hb, hd, hslot, hdata⟩ := h.tracked (Or.inr hs)
    refine ⟨hc, ht, hpost ▸ hb, ?_, hkept.trigIndex.trans hslot, ?_⟩
    · change (datapath s.core i).offset.toNat = (s.uFchk.fShadowOff.toNat +
        (s.uFchk.fTarget.toNat - (datapath s.core i).postRemaining.toNat + 1)) %
          sliceSize L s.core.windowsQ
      rw [hoff, hpost]
      exact hd
    · change (datapath s.core i).uBuf.mem (datapath s.core i).trigIndex = _
      rw [hkept.buf, hkept.trigIndex]
      exact hdata

/-! ### The assertions -/

/-- Slice-relative distances, as the checker computes them. -/
theorem masked_toNat {c : Core W L T} (h : Shape c) (x : BitVec L) :
    (x &&& c.sliceMask).toNat = x.toNat % sliceSize L c.windowsQ := by
  rw [BitVec.toNat_and, h.mask, sliceSize_eq hL hL', Nat.and_two_pow_sub_one_eq_mod]

theorem confined {c : Core W L T} (h : Shape c) {x : BitVec L} (hx : x.toNat < sliceSize L c.windowsQ) :
    x &&& ~~~c.sliceMask = 0 := by
  have hmasked : x &&& c.sliceMask = x := by
    apply BitVec.eq_of_toNat_eq
    rw [masked_toNat hL hL' h, Nat.mod_eq_of_lt hx]
  rw [← hmasked, BitVec.and_assoc, BitVec.and_not_self]
  exact BitVec.and_zero

theorem distance_masked {s : CheckedCore W L T} (hsh : Shape s.core) (h : Tracked s) :
    (s.core.offset - s.uFchk.fShadowOff) &&& s.core.sliceMask =
      (s.uFchk.fTarget - s.core.postRemaining + 1).setWidth L &&& s.core.sliceMask := by
  have hdvd : sliceSize L s.core.windowsQ ∣ 2 ^ L :=
    ⟨_, (weff_mul_sliceSize hL hL' _).symm.trans (Nat.mul_comm _ _)⟩
  have hb := h.budget
  have hone : 1 < 2 ^ (L + 1) := Nat.one_lt_two_pow (by omega)
  have hsub : (s.uFchk.fTarget - s.core.postRemaining).toNat =
      s.uFchk.fTarget.toNat - s.core.postRemaining.toNat := BitVec.toNat_sub_of_le (BitVec.le_def.mpr hb)
  have hlt := s.uFchk.fShadowOff.isLt
  have hdist := h.distance
  generalize s.uFchk.fTarget.toNat - s.core.postRemaining.toNat = d at hsub hdist
  apply BitVec.eq_of_toNat_eq
  rw [masked_toNat hL hL' hsh, masked_toNat hL hL' hsh, BitVec.toNat_setWidth, BitVec.toNat_add, hsub,
    Nat.mod_mod_of_dvd _ hdvd, Nat.mod_mod_of_dvd _ (hdvd.trans (pow_dvd_pow 2 (Nat.le_succ L))),
    BitVec.toNat_sub, Nat.mod_mod_of_dvd _ hdvd, hdist, Nat.add_mod_mod]
  have hwhole : 2 ^ L - s.uFchk.fShadowOff.toNat + (s.uFchk.fShadowOff.toNat + (d + 1)) = d + 1 + 2 ^ L := by
    omega
  obtain ⟨q, hq⟩ := hdvd
  rw [hwhole, hq, Nat.add_mul_mod_self_left, toNat_one (by omega)]

theorem Sound.asserts {s : CheckedCore W L T} (h : Sound s) (i : CheckedIn W L) : s.Asserts i := by
  have hsh := h.shape
  have hmask := hsh.mask
  have hpos := sliceSize_pos hL hL' s.core.windowsQ
  have hdvd : sliceSize L s.core.windowsQ ∣ 2 ^ L := ⟨_, (weff_mul_sliceSize hL hL' _).symm.trans (Nat.mul_comm _ _)⟩
  have htracked := fun hs => h.tracked (Or.inl hs)
  refine ⟨fun hacc => ?_, fun _ hw hs => ?_, fun _ hs => ?_, fun _ hs => ?_, fun _ hs => ?_, fun _ hs => ?_,
    fun hs => h.live (Or.inl hs), fun _ => h.spent, confined hL hL' hsh hsh.offset_lt, ?_, ?_, ?_, ?_, ?_,
    fun hs => captureWr_quiet _ hs.symm⟩
  · rw [captureWr_filling _ (Or.inr (trigAccept_state hacc)), trigAccept_valid hacc]
  · rw [captureWr_triggered _ hs, Bool.and_eq_true, bne_iff_ne] at hw
    exact (htracked hs).apart hw.2
  · exact BitVec.le_def.mpr (htracked hs).budget
  · exact distance_masked hL hL' hsh (htracked hs)
  · rw [BitVec.le_def, BitVec.toNat_setWidth, pow_succ, Nat.mod_eq_of_lt (by omega), hmask]
    have := (htracked hs).target
    omega
  · exact confined hL hL' hsh (htracked hs).confined
  · apply BitVec.eq_of_toNat_eq
    rw [masked_toNat hL hL' hsh, Nat.mod_eq_zero_of_dvd (base_aligned hL hL' hsh).1]
    rfl
  · apply BitVec.eq_of_toNat_eq
    rw [BitVec.and_comm, masked_toNat hL hL' hsh, BitVec.toNat_add, toNat_one hL, hmask,
      Nat.mod_mod_of_dvd _ hdvd, Nat.sub_add_cancel hpos, Nat.mod_self]
    rfl
  · have hlt := weffLog2Of_lt hL hL' s.core.windowsQ
    rw [BitVec.le_def, hsh.weff, BitVec.toNat_ofNat, Nat.mod_eq_of_lt (by omega)]
    omega
  · apply BitVec.eq_of_toNat_eq
    rw [hmask, hsh.weff, ← sliceMaskOf_toNat hL hL']
    rfl
  · have hlt := pretrigOf_lt hL hL' i.ports.pretrig s.core.windowsQ
    rw [BitVec.le_def, pretrigEff_toNat hL hL' hsh, hmask]
    omega

omit hL hL' in
theorem accepted_step {c : Core W L T} {i : CoreIn W L} (h : trigAccept c i = true) :
    (Core.step c i).st = .triggered ∨ (Core.step c i).st = .idle := by
  rw [Core.step, Core.control, trigAccept_state h]
  by_cases hd : i.disarm = true
  · rw [if_pos hd]
    exact Or.inr rfl
  · rw [if_neg hd]
    dsimp only
    rw [if_pos h]
    exact Or.inl rfl

omit hL hL' in
theorem triggered_step {c : Core W L T} (i : CoreIn W L) (h : c.st = .triggered) :
    (Core.step c i).base = c.base := by
  rw [Core.step, Core.control, h]
  dsimp only
  split_ifs <;> rfl

omit hL hL' in
/-- `DONE` is left unless the core is parked. -/
theorem done_step {c : Core W L T} {i : CoreIn W L} (h : c.st = .done) (h' : (Core.step c i).st = .done) :
    Core.step c i = datapath c i := by
  have hm := step_move c i
  generalize Core.step c i = c' at hm h' ⊢
  cases hm with
  | abort _ | start _ | rearm _ _ _ _ => cases h'
  | park _ _ _ _ => rfl
  | rest _ hs _ | fill _ hs _ | backlog _ hs _ | circulate _ hs _ | trigger _ hs _ | post _ hs _
    | complete _ hs _ => exact absurd (h.symm.trans hs) (by decide)

omit hL hL' in
/-- The assertions about two cycles. -/
theorem assertsPast (s : CheckedCore W L T) (i : CheckedIn W L) : (s.step i).AssertsPast s i := by
  have hlive : i.rst = false → (s.step i).core = Core.step s.core i.ports := fun hr =>
    if_neg (by rw [hr]; exact Bool.false_ne_true)
  refine ⟨fun hacc hr => ?_, fun hacc hr => ?_, fun _ hs hr => ?_, fun hr hs hs' => ?_⟩
  · have hkept : (s.step i).uFchk.fShadowOff = s.core.offset := by
      change (s.fchkStep i).fShadowOff = _
      rw [fchkStep, if_neg (by rw [hr]; exact Bool.false_ne_true), if_pos hacc]
    rw [hlive hr, hkept, (step_latches s.core i.ports).2.1, if_pos hacc]
    rfl
  · rw [hlive hr]
    exact accepted_step hacc
  · rw [hlive hr]
    exact triggered_step i.ports hs
  · rw [hlive hr] at hs' ⊢
    rw [done_step hs hs']
    have hw := captureWr_quiet i.ports (Or.inr hs)
    exact ⟨if_neg (by rw [hw]; exact Bool.false_ne_true), rfl⟩

/-! ### Runs -/

omit hL hL' in
/-- A run from any state at all. -/
def run (s₀ : CheckedCore W L T) (inp : ℕ → CheckedIn W L) : ℕ → CheckedCore W L T := trace step s₀ inp

theorem sound_run (s₀ : CheckedCore W L T) (inp : ℕ → CheckedIn W L) (h₀ : (inp 0).rst = true) (n : ℕ) :
    Sound (run s₀ inp (n + 1)) := by
  have hreset : ∀ s : CheckedCore W L T, ∀ i : CheckedIn W L, i.rst = true → Sound (s.step i) := by
    intro s i hr
    have hstep : s.step i =
        { core := s.core.reset, uFchk := { s.uFchk with fShadowValid := false } } := by
      rw [step, fchkStep, hr, if_pos rfl, if_pos rfl]
    rw [hstep]
    exact Sound.reset hL hL' s s.uFchk
  induction n with
  | zero => exact hreset _ _ h₀
  | succ n ih =>
    change Sound ((run s₀ inp (n + 1)).step (inp (n + 1)))
    obtain ⟨_ | _, ports⟩ := inp (n + 1)
    · exact ih.step hL hL' ports
    · exact hreset _ _ rfl

/-- Every assertion of the checker holds, at every depth and width, in every cycle of every run that
starts with a reset and may be reset again at any time. While a window is past its trigger the buffer
holds the trigger sample, which the shadow then has, at `trig_index`. -/
theorem assertions_hold (s₀ : CheckedCore W L T) (inp : ℕ → CheckedIn W L) (h₀ : (inp 0).rst = true) (n : ℕ) :
    (run s₀ inp (n + 1)).Asserts (inp (n + 1)) ∧
    (run s₀ inp (n + 1)).AssertsPast (run s₀ inp n) (inp n) ∧
    ((run s₀ inp (n + 1)).core.st = .triggered ∨ (run s₀ inp (n + 1)).core.st = .done →
      (run s₀ inp (n + 1)).uFchk.fShadowValid = true ∧
        (run s₀ inp (n + 1)).core.uBuf.mem (run s₀ inp (n + 1)).core.trigIndex =
          (run s₀ inp (n + 1)).uFchk.fShadowData) := by
  have h := sound_run hL hL' s₀ inp h₀ n
  exact ⟨h.asserts hL hL' _, assertsPast _ _, fun hs => ⟨h.live hs, (h.tracked hs).data⟩⟩

end

/-- A window armed at once, with the trigger held high. -/
def eagerIn (n : ℕ) : CheckedIn 4 3 where
  rst := n == 0
  ports := { sampleData := BitVec.ofNat 4 n, sampleValid := true, trig := true, arm := n == 1, disarm := false,
             pretrig := 0, windows := 1, rdAddr := 0, winRdAddr := 0 }

/-- The trigger is accepted in the fourth cycle, the window is over in the twelfth. -/
theorem eager_kept : (run { core := Core.blank 4 3 48, uFchk := ⟨false, 0, 0, 0⟩ } eagerIn 11).core.uBuf.mem
    (run { core := Core.blank 4 3 48, uFchk := ⟨false, 0, 0, 0⟩ } eagerIn 11).core.trigIndex = 3 := by
  have h := (assertions_hold (by decide) (by decide) { core := Core.blank 4 3 48, uFchk := ⟨false, 0, 0, 0⟩ }
    eagerIn rfl 10).2.2
  have hst : (run { core := Core.blank 4 3 48, uFchk := ⟨false, 0, 0, 0⟩ } eagerIn 11).core.st = .done := by
    decide +kernel
  rw [(h (Or.inr hst)).2]
  decide +kernel

end FpgaScope.CheckedCore
