import FpgaScope.Capture.WindowCount
import FpgaScope.Core.Rest
import FpgaScope.Host.Status

/-! `STATUS` as the host polls it. `DONE` is also the state of the one cycle between two
windows; together with `windows_done` it says whether the capture is complete. -/

namespace FpgaScope.Capture

open Host

variable {p : Params}

section
variable (c₀ : Capture p) (inp : ℕ → CaptureIn p)

/-- A `STATUS` read samples the bus in cycle `n`. -/
def StatusRead (n : ℕ) : Prop := (inp n).bus.read = true ∧ (inp n).bus.addr = csrStatus

/-- The word sampled in cycle `n`. -/
def polled (n : ℕ) : ℕ := ((run c₀ inp n).csrRdata (inp n)).toNat

/-- The capture is complete in cycle `n`: every configured window is in its slice, and up
to the next accepted arm nothing is written and the drained data stays. -/
structure Complete (n : ℕ) : Prop where
  all : ∃ a, Core.LastArm c₀.core (coreInp c₀ inp) a n ∧
    ∀ j < (run c₀ inp n).csr.windowsQ.toNat, ∃ u d, Core.Kept c₀.core (coreInp c₀ inp) a n j u d
  frozen : ∀ m, n ≤ m →
    (∀ v, n ≤ v → v < m → (run c₀ inp v).core.armAccept (coreInp c₀ inp v) = false) →
    (run c₀ inp m).core.captureWr (coreInp c₀ inp m) = false ∧
      ((run c₀ inp m).core.windowDoneNow (coreInp c₀ inp m) && !disarmAt inp m) = false ∧
      (run c₀ inp n).core.Frozen (run c₀ inp m).core

end

variable {c₀ : Capture p} {inp : ℕ → CaptureIn p}

theorem polled_status {n : ℕ} (h : StatusRead inp n) : decodeStatus (polled c₀ inp n) =
    decodeStatus ((run c₀ inp n).csr.statusWord (run c₀ inp n).core).toNat := by
  rw [polled, csrRdata, Csr.rdata, h.2]
  rfl

/-- From a core at rest on nothing is written before the next accepted arm. -/
theorem rests_frozen {n : ℕ} (h : (run c₀ inp n).core.Rests) (m : ℕ) (hm : n ≤ m)
    (hq : ∀ v, n ≤ v → v < m → (run c₀ inp v).core.armAccept (coreInp c₀ inp v) = false) :
    (run c₀ inp m).core.Rests ∧ (run c₀ inp n).core.Frozen (run c₀ inp m).core := by
  induction m, hm using Nat.le_induction with
  | base => exact ⟨h, (Core.Parked.refl _).frozen⟩
  | succ m hm ih =>
    obtain ⟨hrest, hfrozen⟩ := ih fun v h₁ h₂ => hq v h₁ (by omega)
    obtain ⟨hrest', hfrozen'⟩ := hrest.frozen (hq m hm (Nat.lt_succ_self m))
    exact ⟨hrest', hfrozen.trans hfrozen'⟩

/-- With all windows done the capture is complete. -/
theorem complete_of_parked {n : ℕ} (h : parkedAt c₀ inp n) : Complete c₀ inp n := by
  obtain ⟨hL, hL'⟩ := depthLog2_bounds p
  have hcore := core_run c₀ inp n
  obtain ⟨a, ha⟩ := lastArm_of_busy h.busy
  have hcount := parked_count ha h
  rw [← windowsQ_held ha h.busy] at hcount
  obtain ⟨hpos, hle⟩ := windows_bounds c₀ inp a
  refine ⟨⟨a, ha, fun j hj => ?_⟩, fun m hm hq => ?_⟩
  · rw [← hcount, hcore] at hj
    exact Core.allKept_run hL hL' ha hpos hle j hj
  · obtain ⟨hrest, hfrozen⟩ := rests_frozen (Or.inr h) m hm hq
    have hst : (run c₀ inp m).core.st = .idle ∨ (run c₀ inp m).core.st = .done :=
      hrest.imp_right And.left
    refine ⟨Core.captureWr_quiet _ hst, ?_, hfrozen⟩
    rw [Core.windowDoneNow_of_ne _ (by rcases hst with hs | hs <;> rw [hs] <;> decide),
      Bool.false_and]

/-- A poll that ends the wait of the host: with `windows_done` at the configured count the
capture is complete; with less it met the cycle between two windows. -/
theorem polled_done (c₀ : Capture p) (inp : ℕ → CaptureIn p) (n : ℕ) (hread : StatusRead inp n)
    (hdone : waitDone [polled c₀ inp n] = true) :
    ((decodeStatus (polled c₀ inp n)).windowsDone = (run c₀ inp n).csr.windowsQ.toNat →
      Complete c₀ inp n) ∧
    ((decodeStatus (polled c₀ inp n)).windowsDone ≠ (run c₀ inp n).csr.windowsQ.toNat →
      (decodeStatus (polled c₀ inp n)).windowsDone < (run c₀ inp n).csr.windowsQ.toNat ∧
      ((inp n).bus.arm = false → (inp n).bus.disarm = false → stAt c₀ inp (n + 1) = .filling)) := by
  obtain ⟨hL, hL'⟩ := depthLog2_bounds p
  rw [waitDone_single, beq_iff_eq, polled_status hread, decode_statusWord, code_done] at hdone
  rw [polled_status hread, decode_statusWord]
  dsimp only
  have hst : stAt c₀ inp n = .done := hdone
  have hbusy : stAt c₀ inp n ≠ .idle := by rw [hst]; decide
  have hq := windowsQ_latched hbusy
  rw [← hq]
  obtain ⟨a, ha⟩ := lastArm_of_busy hbusy
  have hcnt := Core.counted_run hL hL' ha (windows_bounds c₀ inp a).1
  rw [← core_run] at hcnt
  refine ⟨fun hall => complete_of_parked ⟨hst, ?_⟩, fun hne => ?_⟩
  · rw [BitVec.lt_def, hall]
    exact lt_irrefl _
  · have hlt : (run c₀ inp n).core.windowsDone.toNat < (run c₀ inp n).core.windowsQ.toNat := by
      have := hcnt.idx_lt
      have := hcnt.done_le
      omega
    refine ⟨hlt, fun harm hdis => ?_⟩
    have hno : (run c₀ inp n).core.armAccept (coreInp c₀ inp n) = false := by
      rw [Core.armAccept, show (coreInp c₀ inp n).arm = false from harm, Bool.false_and,
        Bool.false_and]
    have hstep := Core.step_done (i := coreInp c₀ inp n) hdone hdis hno
    rw [if_pos (BitVec.lt_def.mpr hlt)] at hstep
    change ((run c₀ inp n).core.step (coreInp c₀ inp n)).st = _
    rw [hstep]
    rfl

/-- The poll that finds all 128 windows done. -/
theorem windowsIn_complete : ∃ n, waitDone [polled (blank oneBit) (windowsIn 128) n] = true ∧
    Complete (blank oneBit) (windowsIn 128) n := by
  obtain ⟨d, hd, hpark⟩ := windowsIn_parks 128 (by decide)
  obtain ⟨harm, hparked⟩ := hpark d le_rfl
  have hread : StatusRead (windowsIn 128) d := by
    rw [StatusRead, windowsIn_bus 128 hd]
    exact ⟨rfl, rfl⟩
  have hdone : waitDone [polled (blank oneBit) (windowsIn 128) d] = true := by
    rw [waitDone_single, beq_iff_eq, polled_status hread, decode_statusWord, code_done]
    exact hparked.1
  refine ⟨d, hdone, (polled_done _ _ d hread hdone).1 ?_⟩
  rw [polled_status hread, decode_statusWord, windowsQ_held harm hparked.busy,
    ← parked_count harm hparked]

/-- The poll of cycle 5 meets the cycle between the first two of 128 windows. -/
theorem windowsIn_between :
    ¬ ∀ (p : Params) (c₀ : Capture p) (inp : ℕ → CaptureIn p) (n : ℕ), StatusRead inp n →
      waitDone [polled c₀ inp n] = true → Complete c₀ inp n := by
  intro h
  have hcomplete := h oneBit (blank oneBit) (windowsIn 128) 5 ⟨rfl, rfl⟩ (by decide)
  have hquiet : ∀ v, 5 ≤ v → v < 6 → (run (blank oneBit) (windowsIn 128) v).core.armAccept
      (coreInp (blank oneBit) (windowsIn 128) v) = false := by
    intro v h₁ h₂
    obtain rfl : v = 5 := by omega
    decide
  exact absurd (hcomplete.frozen 6 (by decide) hquiet).1 (by decide)

end FpgaScope.Capture
