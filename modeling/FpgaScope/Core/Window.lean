import FpgaScope.Core.Steps
import FpgaScope.Lib.Ring

/-! Runs of `scope_core` and the ring buffer of the window in flight. `presented`
is the stream of samples offered with `sample_valid`; `SliceInv` ties the write
offset, the wrap flag and the slice to the samples stored since the window
began, and survives every cycle of the window. -/

namespace FpgaScope.Core

open Clocked

variable {W L T : ℕ}

/-- A run of `scope_core` from reset; memories and read registers start with
arbitrary contents. -/
def run (c₀ : Core W L T) (inp : ℕ → CoreIn W L) : ℕ → Core W L T := trace step c₀.reset inp

theorem run_succ (c₀ : Core W L T) (inp : ℕ → CoreIn W L) (n : ℕ) :
    run c₀ inp (n + 1) = step (run c₀ inp n) (inp n) := rfl

/-- The sample of a cycle, if it is presented with `sample_valid`. -/
def validSample (i : CoreIn W L) : Option (BitVec W) :=
  if i.sampleValid then some i.sampleData else none

/-- The samples presented with `sample_valid` before cycle `n`. -/
def presented (inp : ℕ → CoreIn W L) : ℕ → List (BitVec W) :=
  collect fun k => validSample (inp k)

theorem presented_valid {inp : ℕ → CoreIn W L} {n : ℕ} (h : (inp n).sampleValid = true) :
    presented inp (n + 1) = presented inp n ++ [(inp n).sampleData] :=
  collect_some (by rw [validSample, if_pos h])

theorem presented_gap {inp : ℕ → CoreIn W L} {n : ℕ} (h : (inp n).sampleValid = false) :
    presented inp (n + 1) = presented inp n :=
  collect_none (by rw [validSample, if_neg (by simp [h])])

theorem presented_length_mono (inp : ℕ → CoreIn W L) {m n : ℕ} (h : m ≤ n) :
    (presented inp m).length ≤ (presented inp n).length := collect_length_mono _ h

/-- Samples presented in the cycles `f .. n-1`. -/
def stored (inp : ℕ → CoreIn W L) (f n : ℕ) : ℕ :=
  (presented inp n).length - (presented inp f).length

theorem stored_self (inp : ℕ → CoreIn W L) (f : ℕ) : stored inp f f = 0 := Nat.sub_self _

theorem stored_add (inp : ℕ → CoreIn W L) {f n : ℕ} (h : f ≤ n) :
    (presented inp f).length + stored inp f n = (presented inp n).length :=
  Nat.add_sub_cancel' (presented_length_mono inp h)

theorem stored_valid {inp : ℕ → CoreIn W L} {f n : ℕ} (hf : f ≤ n)
    (h : (inp n).sampleValid = true) : stored inp f (n + 1) = stored inp f n + 1 := by
  have := stored_add inp hf
  rw [stored, presented_valid h, List.length_append, List.length_singleton]
  omega

theorem stored_gap {inp : ℕ → CoreIn W L} {f n : ℕ} (h : (inp n).sampleValid = false) :
    stored inp f (n + 1) = stored inp f n := by
  rw [stored, presented_gap h, stored]

/-- Buffer word at a natural-number address. -/
def bufAt (c : Core W L T) (a : ℕ) : BitVec W := c.uBuf.mem (BitVec.ofNat L a)

/-- The current window's slice, read at its base in address order. -/
def slice (c : Core W L T) : List (BitVec W) :=
  (List.range (sliceSize L c.windowsQ)).map fun o => bufAt c (c.base.toNat + o)

section
variable (hL : 1 ≤ L) (hL' : L ≤ 16)
include hL hL'

/-- The base register is slice aligned and leaves room for the whole slice. -/
theorem base_aligned {c : Core W L T} (h : Shape c) :
    sliceSize L c.windowsQ ∣ c.base.toNat ∧
      c.base.toNat + sliceSize L c.windowsQ ≤ depth L := by
  have hw := weff_mul_sliceSize hL hL' c.windowsQ
  have hpos : 0 < weff L c.windowsQ := by rw [weff_eq hL hL']; exact Nat.two_pow_pos _
  have hb : c.base.toNat = (c.winIdx.toNat % weff L c.windowsQ) * sliceSize L c.windowsQ := by
    rw [h.base, ← hw, Nat.mul_mod_mul_right]
  have hlt : c.winIdx.toNat % weff L c.windowsQ + 1 ≤ weff L c.windowsQ := Nat.mod_lt _ hpos
  refine ⟨hb ▸ Dvd.intro_left _ rfl, ?_⟩
  calc c.base.toNat + sliceSize L c.windowsQ
      = (c.winIdx.toNat % weff L c.windowsQ + 1) * sliceSize L c.windowsQ := by
        rw [hb, Nat.add_one_mul]
    _ ≤ weff L c.windowsQ * sliceSize L c.windowsQ := Nat.mul_le_mul_right _ hlt
    _ = depth L := hw

/-- OR-ing base and offset adds them. -/
theorem wrAddrW_toNat {c : Core W L T} (h : Shape c) :
    (wrAddrW c).toNat = c.base.toNat + c.offset.toNat := by
  obtain ⟨q, hq⟩ := (base_aligned hL hL' h).1
  have hlt := h.offset_lt
  rw [sliceSize_eq hL hL'] at hq hlt
  rw [wrAddrW, BitVec.toNat_or, hq]
  exact (Nat.two_pow_add_eq_or_of_lt hlt q).symm

/-- One write changes one word of the buffer. -/
theorem bufAt_datapath {c : Core W L T} (h : Shape c) (i : CoreIn W L) {a : ℕ} (ha : a < depth L) :
    bufAt (datapath c i) a =
      if captureWr c i = true ∧ a = c.base.toNat + c.offset.toNat then i.sampleData
      else bufAt c a := by
  have haddr : BitVec.ofNat L a = wrAddrW c ↔ a = c.base.toNat + c.offset.toNat := by
    rw [← BitVec.toNat_inj, wrAddrW_toNat hL hL' h, BitVec.toNat_ofNat,
      show a % 2 ^ L = a from Nat.mod_eq_of_lt ha]
  unfold bufAt datapath Ram.step
  by_cases hw : captureWr c i = true
  · simp only [hw, ↓reduceIte, Function.update_apply, haddr, true_and]
  · simp [hw]

end

/-- After `m` samples stored since cycle `f`: the offset, the wrap flag and the
newest `SLICE` of them. -/
structure SliceInv (inp : ℕ → CoreIn W L) (c : Core W L T) (n f m : ℕ) : Prop where
  f_le : f ≤ n
  offset : c.offset.toNat = m % sliceSize L c.windowsQ
  wrapped : c.wrapped = decide (sliceSize L c.windowsQ ≤ m)
  holds : Ring.Holds (fun o => bufAt c (c.base.toNat + o)) (sliceSize L c.windowsQ)
    ((presented inp n).drop (presented inp f).length) (m - sliceSize L c.windowsQ) m

section
variable (hL : 1 ≤ L) (hL' : L ≤ 16)
include hL hL'

/-- A cycle without a write. -/
theorem SliceInv.hold {inp : ℕ → CoreIn W L} {c : Core W L T} {n f m : ℕ}
    (h : SliceInv inp c n f m) (hw : captureWr c (inp n) = false) :
    SliceInv inp (datapath c (inp n)) (n + 1) f m := by
  have hbuf : (datapath c (inp n)).uBuf.mem = c.uBuf.mem := by
    simp [datapath, hw]
  refine ⟨h.f_le.trans (Nat.le_succ n), ?_, ?_, ?_⟩
  · simpa [datapath, hw] using h.offset
  · simpa [datapath, hw] using h.wrapped
  · obtain ⟨ys, hys⟩ := collect_mono (fun k => validSample (inp k)) (Nat.le_succ n)
    change presented inp n ++ ys = presented inp (n + 1) at hys
    rw [← hys, List.drop_append_of_le_length (presented_length_mono inp h.f_le)]
    refine (h.holds.append ys).congr (sliceSize_pos hL hL' _) fun o _ => ?_
    simp only [bufAt, hbuf, datapath_base]

/-- A cycle that stores its sample as the next one of the window. -/
theorem SliceInv.store {inp : ℕ → CoreIn W L} {c : Core W L T} {n f : ℕ}
    (h : SliceInv inp c n f (stored inp f n)) (hsh : Shape c)
    (hw : captureWr c (inp n) = true) :
    SliceInv inp (datapath c (inp n)) (n + 1) f (stored inp f (n + 1)) := by
  have hpos := sliceSize_pos hL hL' c.windowsQ
  have hv := captureWr_valid hw
  have hroom := (base_aligned hL hL' hsh).2
  have hnext := stored_valid h.f_le hv
  have hoff : c.offset.toNat = stored inp f n % sliceSize L c.windowsQ := h.offset
  generalize hm : stored inp f n = m at *
  rw [hnext]
  refine ⟨h.f_le.trans (Nat.le_succ n), ?_, ?_, ?_⟩
  · change (if captureWr c (inp n) then _ else _ : BitVec L).toNat = _
    rw [if_pos hw, offset_next hL hL' hsh, hoff, Nat.mod_add_mod]
    rfl
  · have hmask : (c.offset == c.sliceMask) = decide (m % sliceSize L c.windowsQ + 1 =
        sliceSize L c.windowsQ) := by
      rw [Bool.eq_iff_iff, beq_iff_eq, decide_eq_true_iff, ← BitVec.toNat_inj, hoff, hsh.mask]
      omega
    rw [wrapped_datapath, wrappedNext, hw, Bool.true_and, h.wrapped, hmask, datapath_windowsQ,
      Bool.eq_iff_iff]
    simp only [Bool.or_eq_true, decide_eq_true_iff]
    rcases Nat.lt_or_ge m (sliceSize L c.windowsQ) with hlt | hge
    · rw [Nat.mod_eq_of_lt hlt]; omega
    · omega
  · have hx : ((presented inp (n + 1)).drop (presented inp f).length)[m]? =
        some (inp n).sampleData := by
      have hlen := stored_add inp h.f_le
      rw [hm] at hlen
      rw [List.getElem?_drop, hlen, presented_valid hv]
      simp
    have hgrow : Ring.Holds (fun o => bufAt c (c.base.toNat + o)) (sliceSize L c.windowsQ)
        ((presented inp (n + 1)).drop (presented inp f).length)
        (m + 1 - sliceSize L c.windowsQ) m := by
      rw [presented_valid hv,
        List.drop_append_of_le_length (presented_length_mono inp h.f_le)]
      exact (h.holds.append _).weaken (by omega)
    refine hgrow.push (by omega) hx ?_ ?_
    · have hlt := Nat.mod_lt m hpos
      change bufAt (datapath c (inp n)) (c.base.toNat + m % sliceSize L c.windowsQ) = _
      rw [bufAt_datapath hL hL' hsh (inp n) (by omega), if_pos ⟨hw, by rw [hoff]⟩]
    · intro o ho hne
      change bufAt (datapath c (inp n)) (c.base.toNat + o) = _
      rw [bufAt_datapath hL hL' hsh (inp n) (by omega), if_neg]
      rintro ⟨-, he⟩
      exact hne (by omega)

end

end FpgaScope.Core
