import FpgaScope.Rle.Lossless

/-! The encoder never expands, whatever the inputs: the runtime enable may change at any time. A word
in the skid and a count still to be sent are owed; they never come to more than one, and each was paid
for by a sample. -/

namespace FpgaScope

variable {W L : ℕ}

/-- The counters of the formal run. -/
structure RleFchk where
  fSamples : BitVec 32
  fWords : BitVec 32

/-- One edge outside reset. -/
def RleFchk.step (k : RleFchk) (r : Rle W L) (i : RleIn W) : RleFchk where
  fSamples := if i.inValid then k.fSamples + 1 else k.fSamples
  fWords := if r.wordValid i then k.fWords + 1 else k.fWords

namespace Rle

open Clocked

/-- Words that have been produced or counted but not emitted. -/
def owed (r : Rle W L) : ℕ := r.pendValid.toNat + if r.acc = 0 then 0 else 1

theorem Quiet.owed_le {r : Rle W L} (h : Quiet r) : r.owed ≤ 1 := by
  unfold owed
  cases hp : r.pendValid with
  | true => rw [if_pos (h hp)]; rfl
  | false =>
    rw [Bool.toNat_false, Nat.zero_add]
    split <;> omega

/-- A cycle emits no more than it owed and the sample pays for. -/
theorem owed_step {r : Rle W L} (h : Quiet r) (i : RleIn W) :
    (r.wordValid i).toNat + (r.step i).owed ≤ r.owed + i.inValid.toNat := by
  unfold owed
  rw [pendValid_step, (run_step r i).1, wordValid]
  rcases produce_cases r i with hcalm | ⟨hv, ha, hf⟩
  · have hc := produce_case r i.calm rfl
    rw [← hcalm] at hc
    generalize r.produce i = d at hc
    cases hp : r.pendValid with
    | true =>
      have hacc := h hp
      cases hc with
      | gap hv => simp [hacc]
      | bypass hv _ | first hv _ _ | full hv _ _ _ _ _ | one hv _ _ _ _ =>
        have hv' : i.inValid = true := hv
        simp [hacc, hv']
      | same hv _ _ _ _ _ =>
        have hv' : i.inValid = true := hv
        simp only [Bool.or_false, Bool.toNat_true, ↓reduceIte, Bool.toNat_false, hv', hacc]
        split <;> omega
      | two _ _ _ ha _ => exact absurd hacc ha
    | false =>
      cases hc with
      | gap hv => simp
      | bypass hv _ =>
        have hv' : i.inValid = true := hv
        simp [hv', Nat.add_comm]
      | first hv _ _ | full hv _ _ _ _ _ | one hv _ _ _ _ | same hv _ _ _ _ _ =>
        have hv' : i.inValid = true := hv
        simp only [Bool.or_false, Bool.or_true, Bool.toNat_true, ↓reduceIte, Bool.toNat_false, hv',
          Bool.false_eq_true]
        split <;> omega
      | two hv _ _ ha _ =>
        have hv' : i.inValid = true := hv
        simp only [Bool.or_true, Bool.toNat_true, ↓reduceIte, Bool.toNat_false, hv', Bool.false_eq_true,
          if_neg ha]
        omega
  · rw [hf, h.pendValid ha, if_neg ha, hv]
    simp [flushed]

/-! ### Runs -/

variable (inp : ℕ → RleIn W)

theorem out_length (n : ℕ) : (out L inp (n + 1)).length =
    (out L inp n).length + ((run L inp n).wordValid (inp n)).toNat := by
  rw [out, collect_succ, List.length_append, emitted]
  cases (run L inp n).wordValid (inp n) <;> rfl

theorem samples_length (n : ℕ) :
    (samples inp (n + 1)).length = (samples inp n).length + (inp n).inValid.toNat := by
  rw [samples, collect_succ, List.length_append, sampleOf]
  cases (inp n).inValid <;> rfl

/-- Over any stretch the words emitted and owed at its end are covered by the samples of the stretch and
what was owed before. -/
theorem owed_run (m k : ℕ) : (out L inp (m + k)).length + (run L inp (m + k)).owed + (samples inp m).length ≤
    (samples inp (m + k)).length + (out L inp m).length + (run L inp m).owed := by
  induction k with
  | zero =>
    change (out L inp m).length + (run L inp m).owed + (samples inp m).length ≤
      (samples inp m).length + (out L inp m).length + (run L inp m).owed
    omega
  | succ k ih =>
    have hstep := owed_step (quiet_run (L := L) inp (m + k)) (inp (m + k))
    rw [← run_succ] at hstep
    rw [← Nat.add_assoc, out_length, samples_length]
    omega

/-- The counters of the formal run, from reset. -/
def fchk (L : ℕ) (inp : ℕ → RleIn W) : ℕ → RleFchk
  | 0 => { fSamples := 0, fWords := 0 }
  | n + 1 => (fchk L inp n).step (run L inp n) (inp n)

theorem fchk_counts (n : ℕ) : fchk L inp n =
    { fSamples := BitVec.ofNat 32 (samples inp n).length, fWords := BitVec.ofNat 32 (out L inp n).length } := by
  induction n with
  | zero => rfl
  | succ n ih =>
    rw [fchk, ih, RleFchk.step, out_length, samples_length]
    cases (inp n).inValid <;> cases (run L inp n).wordValid (inp n) <;> simp [BitVec.ofNat_add]

/-- The encoder never expands. For any use of `enable`, `flush` and `trig_in` and any gaps: no more words
have been emitted or wait in the skid than samples were consumed; any stretch of cycles emits at most one
word more than it consumes; no word is dropped; and the assertion of the formal run holds as long as its
counters have not come round. -/
theorem never_expands (m k : ℕ) :
    (out L inp m).length + (run L inp m).pending.length ≤ (samples inp m).length ∧
    (out L inp (m + k)).length + (samples inp m).length ≤
      (samples inp (m + k)).length + (out L inp m).length + 1 ∧
    out L inp m ++ (run L inp m).pending = made L inp m ∧
    ((samples inp m).length + 1 < 2 ^ 32 → (fchk L inp m).fWords ≤ (fchk L inp m).fSamples + 1) := by
  have hstart := owed_run (L := L) inp 0 m
  rw [Nat.zero_add] at hstart
  have hpaid : (out L inp m).length + (run L inp m).owed ≤ (samples inp m).length := by
    have h₀ : (run L inp 0).owed = 0 := by simp [run, owed, Rle.reset]
    have hnone : (out L inp 0).length = 0 ∧ (samples inp 0).length = 0 := ⟨rfl, rfl⟩
    omega
  refine ⟨?_, ?_, out_pending inp m, fun hroom => ?_⟩
  · have hpend : (run L inp m).pending.length ≤ (run L inp m).owed := by
      unfold pending owed
      cases (run L inp m).pendValid <;> simp
    omega
  · have hstretch := owed_run (L := L) inp m k
    have := (quiet_run (L := L) inp m).owed_le
    omega
  · have hsucc : BitVec.ofNat 32 (samples inp m).length + 1 = BitVec.ofNat 32 ((samples inp m).length + 1) :=
      (BitVec.ofNat_add _ _).symm
    rw [fchk_counts, BitVec.le_def]
    dsimp only
    rw [hsucc, BitVec.toNat_ofNat, BitVec.toNat_ofNat, Nat.mod_eq_of_lt hroom, Nat.mod_eq_of_lt (by omega)]
    omega

end Rle

end FpgaScope
