import FpgaScope.Capture.RleWindow
import FpgaScope.Capture.Sequencer

/-! The trigger timestamp. `ts` is latched in the cycle the core takes the trigger word;
the probe sample in that word is two cycles older, or three if the word went through
the encoder's skid. -/

namespace FpgaScope.Capture

variable {p : Params}

/-- `u` is the cycle of the last accepted trigger before cycle `n`. -/
structure LastAccept (c₀ : Capture p) (inp : ℕ → CaptureIn p) (u n : ℕ) : Prop where
  lt : u < n
  accept : acceptsAt c₀ inp u = true
  quiet : ∀ v, u < v → v < n → acceptsAt c₀ inp v = false

/-- The word the core takes in cycle `u` was formed from the probe sample of cycle `s`:
`LATENCY` before, and before the cycle in the skid if it comes out of there. -/
def CarriesSample (c₀ : Capture p) (inp : ℕ → CaptureIn p) (u s : ℕ) : Prop :=
  s + 2 + (fromSkid (run c₀ inp u)).toNat = u

/-- A trigger word formed in this state is not put into the skid: there is no encoder,
or no word waits in it and no repeats are outstanding. -/
def direct (c : Capture p) : Bool :=
  !p.rleEn || !(c.rle.pendValid || (c.csr.rleEnableQ && c.rle.havePrev && c.rle.acc != 0))

variable {c₀ : Capture p} {inp : ℕ → CaptureIn p}

/-- The free-running timestamp is the cycle number. -/
theorem ts_run (c₀ : Capture p) (inp : ℕ → CaptureIn p) (n : ℕ) :
    (run c₀ inp n).core.ts = BitVec.ofNat p.tsW n := by
  induction n with
  | zero => rfl
  | succ n ih =>
    rw [BitVec.ofNat_add, ← ih]
    exact (Core.step_latches _ _).1

/-- The trigger registers hold what the last accepted trigger loaded. -/
theorem LastAccept.latched {u n : ℕ} (h : LastAccept c₀ inp u n) :
    (run c₀ inp n).core.trigIndex = (run c₀ inp u).core.wrAddrW ∧
      (run c₀ inp n).core.tsAtTrig = (run c₀ inp u).core.ts := by
  obtain ⟨hlt, hacc, hquiet⟩ := h
  induction n, hlt using Nat.le_induction with
  | base =>
    obtain ⟨-, hidx, hts⟩ := Core.step_latches (run c₀ inp u).core (coreInp c₀ inp u)
    exact ⟨hidx.trans (if_pos hacc), hts.trans (if_pos hacc)⟩
  | succ n hn ih =>
    obtain ⟨hidx, hts⟩ := ih fun v h₁ h₂ => hquiet v h₁ (by omega)
    obtain ⟨-, hidx', hts'⟩ := Core.step_latches (run c₀ inp n).core (coreInp c₀ inp n)
    have hno : (run c₀ inp n).core.trigAccept (coreInp c₀ inp n) ≠ true := by
      rw [show (run c₀ inp n).core.trigAccept (coreInp c₀ inp n) = false from
        hquiet n hn (Nat.lt_succ_self n)]
      decide
    exact ⟨(hidx'.trans (if_neg hno)).trans hidx, (hts'.trans (if_neg hno)).trans hts⟩

/-- The accepted word is the sample it carries, and it was formed two cycles after that
sample. -/
theorem carried_sample {u s : ℕ} (hacc : acceptsAt c₀ inp u = true)
    (hs : CarriesSample c₀ inp u s) :
    (run c₀ inp u).sampleData (inp u) = storedWord p (inp s).probe ∧
      direct (run c₀ inp (s + 2)) = !fromSkid (run c₀ inp u) := by
  obtain ⟨v, hv, hfire, hskid, hword⟩ := accepted_tick hacc
  unfold CarriesSample at hs
  obtain rfl : v = s + 2 := by omega
  rw [sampleO_run] at hword
  refine ⟨hword, ?_⟩
  have htick : (run c₀ inp (s + 2)).sampleEn = true := by
    rw [trigFire_eq, Bool.and_eq_true] at hfire
    exact hfire.2
  rw [Rle.skids_trigger htick hfire] at hskid
  rw [← hskid, direct, Bool.not_and]
  rfl

/-- Two cycles apart is two counts apart, three are not. -/
theorem ts_offset {T : ℕ} (hT : 33 ≤ T) (s d : ℕ) (hd : d ≤ 1) :
    BitVec.ofNat T (s + 2 + d) = BitVec.ofNat T s + 2 ↔ d = 0 := by
  rw [show BitVec.ofNat T s + 2 = BitVec.ofNat T (s + 2) by rw [BitVec.ofNat_add]; rfl]
  refine ⟨fun h => ?_, fun h => by rw [h, Nat.add_zero]⟩
  have hpow : 2 ^ 33 ≤ 2 ^ T := Nat.pow_le_pow_right (by decide) hT
  have hmod := congrArg BitVec.toNat h
  rw [BitVec.toNat_ofNat, BitVec.toNat_ofNat] at hmod
  have hmod' : s + 2 + d ≡ s + 2 + 0 [MOD 2 ^ T] := hmod
  exact Nat.ModEq.eq_of_lt_of_lt hmod'.add_left_cancel' (by omega) (by omega)

/-- `ts_at_trig` is the timestamp of the trigger sample plus `LATENCY` exactly if the
trigger word was not put into the encoder's skid. -/
theorem timestamp_offset (c₀ : Capture p) (inp : ℕ → CaptureIn p) (u n s : ℕ)
    (hu : LastAccept c₀ inp u n) (hs : CarriesSample c₀ inp u s) :
    (run c₀ inp (u + 1)).core.uBuf.mem (run c₀ inp n).core.trigIndex =
        storedWord p (inp s).probe ∧
      (∀ m, u < m → (∀ v, u < v → v ≤ m → stAt c₀ inp v = .triggered) →
        stAt c₀ inp (m + 1) = .done →
        (run c₀ inp (m + 1)).core.uBuf.mem (run c₀ inp (m + 1)).core.trigIndex =
          storedWord p (inp s).probe) ∧
      ((run c₀ inp n).core.tsAtTrig = (run c₀ inp s).core.ts + 2 ↔
        direct (run c₀ inp (s + 2)) = true) := by
  obtain ⟨hword, hdirect⟩ := carried_sample hu.accept hs
  obtain ⟨hidx, hts⟩ := hu.latched
  have harm := accepts_armed hu.accept
  refine ⟨?_, fun m hlt htrig hdone => ?_, ?_⟩
  · have hcap : (run c₀ inp u).core.captureWr (coreInp c₀ inp u) = true := by
      rw [Core.captureWr_filling _ (Or.inr harm)]
      exact Core.trigAccept_valid hu.accept
    rw [hidx, ← hword]
    exact Core.stored_word hcap
  · rw [completed_word harm hlt htrig hdone, hword]
  · have hcycle : s + 2 + (fromSkid (run c₀ inp u)).toNat = u := hs
    have hnow : (run c₀ inp u).core.ts =
        BitVec.ofNat p.tsW (s + 2 + (fromSkid (run c₀ inp u)).toNat) := by rw [hcycle, ts_run]
    rw [hts, hnow, ts_run, ts_offset p.le_tsW s _ (Bool.toNat_le _), hdirect]
    cases fromSkid (run c₀ inp u) <;> decide

/-- The sample of cycle 1 is forced in cycle 3 and stamped 3. -/
theorem forcedIn_timestamp :
    (run (blank oneBit) forcedIn 4).core.tsAtTrig = (run (blank oneBit) forcedIn 1).core.ts + 2 := by
  have hu : LastAccept (blank oneBit) forcedIn 3 4 :=
    ⟨by decide, by decide, fun v h₁ h₂ => by omega⟩
  have h := timestamp_offset (blank oneBit) forcedIn 3 4 1 hu (by unfold CarriesSample; decide)
  exact h.2.2.mpr (by decide)

/-- Encoder on, a constant probe, armed in cycle 1 and forced in cycle 3. -/
def repeatsIn (n : ℕ) : CaptureIn byteRle where
  probe := 0
  trigExtI := false
  bus := if n = 0 then .wr csrRleCtrl 1 else if n = 1 then .wr csrCtrl 1
    else if n = 3 then .wr csrCtrl 4 else .idle

/-- The sample of cycle 2 waits in the skid behind the count of its repeats and is
stamped 5. -/
theorem repeatsIn_timestamp :
    ¬ ∀ (p : Params) (c₀ : Capture p) (inp : ℕ → CaptureIn p) (u n s : ℕ),
      LastAccept c₀ inp u n → CarriesSample c₀ inp u s →
        (run c₀ inp n).core.tsAtTrig = (run c₀ inp s).core.ts + 2 := by
  intro h
  have hu : LastAccept (blank byteRle) repeatsIn 5 6 :=
    ⟨by decide, by decide, fun v h₁ h₂ => by omega⟩
  have hts := h byteRle (blank byteRle) repeatsIn 5 6 2 hu (by unfold CarriesSample; decide)
  rw [ts_run] at hts
  exact absurd hts (by decide)

end FpgaScope.Capture
