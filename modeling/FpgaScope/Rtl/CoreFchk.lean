import FpgaScope.Rtl.Core

/-! `scope_core_fchk`: the checker that rides along with `scope_core` in the formal runs. It keeps
a shadow of the trigger sample and asserts, cycle by cycle, that the trigger slot is never written
again while its window is in flight and that nothing is written in `DONE`. Reset may come at any time. -/

namespace FpgaScope

/-- Registers of the checker. -/
structure CoreFchk (W L : ℕ) where
  fShadowValid : Bool
  fShadowOff : BitVec L
  fShadowData : BitVec W
  fTarget : BitVec (L + 1)

/-- The core with its checker. -/
structure CheckedCore (W L T : ℕ) where
  core : Core W L T
  uFchk : CoreFchk W L

/-- Inputs of the core in one cycle, `rst` among them. -/
structure CheckedIn (W L : ℕ) where
  rst : Bool
  ports : CoreIn W L

namespace CheckedCore

open Core

variable {W L T : ℕ} (s : CheckedCore W L T) (i : CheckedIn W L)

/-- One edge of the checker. -/
def fchkStep : CoreFchk W L :=
  if i.rst then { s.uFchk with fShadowValid := false }
  else if trigAccept s.core i.ports then
    { fShadowValid := true
      fShadowOff := s.core.offset
      fShadowData := i.ports.sampleData
      fTarget := s.core.sliceMask.setWidth (L + 1) - (pretrigEff s.core i.ports).setWidth (L + 1) }
  else if s.core.st == .idle || s.core.st == .filling || s.core.st == .armed then
    { s.uFchk with fShadowValid := false }
  else s.uFchk

def step : CheckedCore W L T where
  core := if i.rst then s.core.reset else Core.step s.core i.ports
  uFchk := s.fchkStep i

/-- The assertions about one cycle. That the encoding of `state` stays legal is a matter of its type. -/
structure Asserts : Prop where
  accept_writes : trigAccept s.core i.ports = true → captureWr s.core i.ports = true
  never_rewritten : s.uFchk.fShadowValid = true → captureWr s.core i.ports = true →
    s.core.st = .triggered → s.core.offset ≠ s.uFchk.fShadowOff
  budget : s.uFchk.fShadowValid = true → s.core.st = .triggered → s.core.postRemaining ≤ s.uFchk.fTarget
  distance : s.uFchk.fShadowValid = true → s.core.st = .triggered →
    (s.core.offset - s.uFchk.fShadowOff) &&& s.core.sliceMask =
      (s.uFchk.fTarget - s.core.postRemaining + 1).setWidth L &&& s.core.sliceMask
  target_fits : s.uFchk.fShadowValid = true → s.core.st = .triggered →
    s.uFchk.fTarget ≤ s.core.sliceMask.setWidth (L + 1)
  shadow_confined : s.uFchk.fShadowValid = true → s.core.st = .triggered →
    s.uFchk.fShadowOff &&& ~~~s.core.sliceMask = 0
  shadow_live : s.core.st = .triggered → s.uFchk.fShadowValid = true
  budget_spent : s.uFchk.fShadowValid = true → s.core.st = .done → s.core.postRemaining = 0
  offset_confined : s.core.offset &&& ~~~s.core.sliceMask = 0
  base_aligned : s.core.base &&& s.core.sliceMask = 0
  mask_contiguous : s.core.sliceMask &&& (s.core.sliceMask + 1) = 0
  weff_clamped : s.core.weffLog2Q ≤ BitVec.ofNat 4 (L - 1)
  mask_latched : s.core.sliceMask = BitVec.ofNat L ((2 ^ L - 1) >>> s.core.weffLog2Q.toNat)
  pretrig_fits : pretrigEff s.core i.ports ≤ s.core.sliceMask
  frozen : s.core.st = .done ∨ s.core.st = .idle → captureWr s.core i.ports = false

/-- The assertions about this cycle and the one before, `s₀` and `i₀`. -/
structure AssertsPast (s₀ : CheckedCore W L T) (i₀ : CheckedIn W L) : Prop where
  slot_latched : trigAccept s₀.core i₀.ports = true → i₀.rst = false →
    s.core.trigIndex = s₀.core.base ||| s.uFchk.fShadowOff
  accepted : trigAccept s₀.core i₀.ports = true → i₀.rst = false →
    s.core.st = .triggered ∨ s.core.st = .idle
  base_kept : s.core.st = .triggered → s₀.core.st = .triggered → i₀.rst = false →
    s.core.base = s₀.core.base
  parked : i₀.rst = false → s₀.core.st = .done → s.core.st = .done →
    s.core.offset = s₀.core.offset ∧ s.core.base = s₀.core.base

end CheckedCore

end FpgaScope
