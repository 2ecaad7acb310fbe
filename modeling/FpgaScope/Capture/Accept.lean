import FpgaScope.Capture.Encoder
import FpgaScope.Capture.Run

/-! From a trigger source to the core. A trigger between two store ticks is held in
`trig_pend`, and under the encoder its tag may spend a cycle in the skid. Neither
holder looks at the FSM: nothing asserted in `ARMED` is lost on the way, and nothing
else reaches the core unless it is carried over as `FILLING` hands over to `ARMED`. -/

namespace FpgaScope.Capture

open Clocked

variable {p : Params}

/-- `FILLING` hands over to `ARMED` in this cycle. -/
def handover (c : Capture p) (i : CaptureIn p) : Bool :=
  c.core.st == .filling && !i.bus.disarm &&
    decide ((c.core.pretrigEff (c.coreIn i)).setWidth (p.depthLog2 + 1) ≤
      c.core.fillNext (c.coreIn i))

/-- A trigger stays behind at the end of this cycle: between two store ticks, or as a
tag in the encoder's skid. -/
def carries (c : Capture p) (i : CaptureIn p) : Bool :=
  ((c.trig i || c.trigPend) && !c.sampleEn) ||
    (p.rleEn && c.trigFire i && c.rle.skids (c.rleIn i))

variable {c₀ : Capture p} {inp : ℕ → CaptureIn p}

theorem handover_of_armed {n : ℕ} (h : stAt c₀ inp n = .filling)
    (h' : stAt c₀ inp (n + 1) = .armed) : handover (run c₀ inp n) (inp n) = true := by
  have hm := move_at c₀ inp n
  unfold stAt at h h'
  unfold handover
  generalize (run c₀ inp (n + 1)).core = c' at hm h'
  cases hm with
  | abort | start | trigger | complete | rearm => cases h'
  | rest _ hs _ | circulate _ hs _ | post _ hs _ | park _ hs _ =>
    exact absurd (hs.symm.trans h) (by decide)
  | fill _ hs _ => exact absurd (hs.symm.trans h') (by decide)
  | backlog hd _ hle =>
    have hd' : (inp n).bus.disarm = false := hd
    simp only [h, hd', beq_self_eq_true, Bool.not_false, Bool.and_self, Bool.true_and,
      decide_eq_true_iff]
    exact hle

theorem armed_of_handover {n : ℕ} (h : handover (run c₀ inp n) (inp n) = true) :
    stAt c₀ inp (n + 1) = .armed := by
  simp only [handover, Bool.and_eq_true, beq_iff_eq, Bool.not_eq_true', decide_eq_true_eq] at h
  obtain ⟨⟨hs, hdis⟩, hback⟩ := h
  have hst : stAt c₀ inp n = .filling := hs
  rcases filling_succ hst hdis with hfill | harm
  · have hm := move_at c₀ inp n
    unfold stAt at hfill
    generalize (run c₀ inp (n + 1)).core = c' at hm hfill
    cases hm with
    | abort | backlog | trigger | complete => cases hfill
    | fill _ _ hlt => exact absurd hback hlt
    | start ha =>
      simp only [Core.armAccept, hs, Bool.and_eq_true] at ha
      exact absurd ha.2 (by decide)
    | rest _ hs' _ | circulate _ hs' _ | post _ hs' _ | rearm _ hs' _ _ | park _ hs' _ _ =>
      exact absurd (hs'.symm.trans hs) (by decide)
  · exact harm

theorem trigPend_succ (n : ℕ) : (run c₀ inp (n + 1)).trigPend =
    ((trigAt c₀ inp n || (run c₀ inp n).trigPend) && !(run c₀ inp n).sampleEn) := by
  change (if (run c₀ inp n).sampleEn then false else if trigAt c₀ inp n then true
    else (run c₀ inp n).trigPend) = _
  cases (run c₀ inp n).sampleEn <;> cases trigAt c₀ inp n <;> simp

theorem trigFire_eq (n : ℕ) : (run c₀ inp n).trigFire (inp n) =
    ((trigAt c₀ inp n || (run c₀ inp n).trigPend) && (run c₀ inp n).sampleEn) := rfl

/-- A tag waits in the skid in cycle `n`. -/
def tagHeld (c : Capture p) : Bool := p.rleEn && c.rle.pendValid && c.rle.pendTrig

theorem tagHeld_succ {n : ℕ} (h : tagHeld (run c₀ inp (n + 1)) = true) :
    p.rleEn = true ∧ (run c₀ inp n).trigFire (inp n) = true ∧
      (run c₀ inp n).rle.skids ((run c₀ inp n).rleIn (inp n)) = true ∧
      (run c₀ inp (n + 1)).rle.pendWord = Rle.dataWord (run c₀ inp n).trigger.sampleO := by
  simp only [tagHeld, Bool.and_eq_true] at h
  obtain ⟨⟨hr, hv⟩, ht⟩ := h
  obtain ⟨-, h2, h3, h4⟩ := Rle.pendTrig_step (i := (run c₀ inp n).rleIn (inp n)) rfl hv ht
  exact ⟨hr, h2, h3, h4⟩

/-- What an accepted trigger came through: a store tick now, or a tag in the skid. -/
theorem accepts_cases {n : ℕ} (h : acceptsAt c₀ inp n = true) :
    (run c₀ inp n).trigFire (inp n) = true ∨ tagHeld (run c₀ inp n) = true := by
  have hc := (acceptsAt_iff.mp h).1
  unfold coreTrig at hc
  unfold tagHeld
  cases hr : p.rleEn with
  | false =>
    rw [hr, if_neg (by simp)] at hc
    exact Or.inl hc
  | true =>
    rw [hr, if_pos rfl] at hc
    rcases Rle.trigOut_cases rfl hc with ⟨hv, ht, -⟩ | ⟨-, -, ht, -⟩
    · exact Or.inr (by simp [hv, ht])
    · exact Or.inl ht

/-! ### No spurious trigger -/

/-- A source asserted in an earlier cycle of the same `ARMED` phase. -/
def SourceBefore (c₀ : Capture p) (inp : ℕ → CaptureIn p) (n : ℕ) : Prop :=
  ∃ s < n, trigAt c₀ inp s = true ∧ ∀ v, s ≤ v → v ≤ n → stAt c₀ inp v = .armed

theorem SourceBefore.now {n : ℕ} (ht : trigAt c₀ inp n = true) (h : stAt c₀ inp n = .armed)
    (h' : stAt c₀ inp (n + 1) = .armed) : SourceBefore c₀ inp (n + 1) := by
  refine ⟨n, Nat.lt_succ_self n, ht, fun v h₁ h₂ => ?_⟩
  rcases Nat.lt_or_ge n v with hv | hv
  · rwa [show v = n + 1 by omega]
  · rwa [show v = n by omega]

theorem SourceBefore.extend {n : ℕ} (h : SourceBefore c₀ inp n)
    (h' : stAt c₀ inp (n + 1) = .armed) : SourceBefore c₀ inp (n + 1) := by
  obtain ⟨s, hs, ht, hall⟩ := h
  exact ⟨s, Nat.lt_succ_of_lt hs, ht, Core.extend_range hall h'⟩

/-- In `ARMED` everything held was asserted in this `ARMED` phase. -/
def HeldInArmed (c₀ : Capture p) (inp : ℕ → CaptureIn p) (n : ℕ) : Prop :=
  stAt c₀ inp n = .armed →
    (run c₀ inp n).trigPend = true ∨ tagHeld (run c₀ inp n) = true → SourceBefore c₀ inp n

theorem heldInArmed_step {n : ℕ}
    (hok : handover (run c₀ inp n) (inp n) = true → carries (run c₀ inp n) (inp n) = false)
    (h : HeldInArmed c₀ inp n) : HeldInArmed c₀ inp (n + 1) := by
  intro harm hheld
  -- a trigger held at the end of cycle `n` was there in cycle `n`
  have hin : (trigAt c₀ inp n || (run c₀ inp n).trigPend) = true ∧
      carries (run c₀ inp n) (inp n) = true := by
    unfold carries
    rcases hheld with hp | ht
    · rw [trigPend_succ, Bool.and_eq_true] at hp
      refine ⟨hp.1, ?_⟩
      rw [show ((run c₀ inp n).trig (inp n) || (run c₀ inp n).trigPend) = true from hp.1, hp.2]
      rfl
    · obtain ⟨hr, hf, hs, -⟩ := tagHeld_succ ht
      rw [hr, hf, hs, Bool.and_self, Bool.and_self, Bool.or_true]
      rw [trigFire_eq, Bool.and_eq_true] at hf
      exact ⟨hf.1, rfl⟩
  rcases armed_succ harm with hfill | ⟨harm', -⟩
  · rw [hok (handover_of_armed hfill harm)] at hin
    cases hin.2
  · rw [Bool.or_eq_true] at hin
    rcases hin.1 with ht | hp
    · exact .now ht harm' harm
    · exact (h harm' (Or.inl hp)).extend harm

theorem heldInArmed_run (hok : ∀ n, handover (run c₀ inp n) (inp n) = true →
    carries (run c₀ inp n) (inp n) = false) (n : ℕ) : HeldInArmed c₀ inp n :=
  invariant_of_step (HeldInArmed c₀ inp) (fun h => by cases h) (fun n h => heldInArmed_step (hok n) h) n

/-- In a run in which no trigger is carried over from `FILLING` to `ARMED`, every
accepted trigger was asserted in the same `ARMED` phase. -/
theorem accepted_in_armed (c₀ : Capture p) (inp : ℕ → CaptureIn p)
    (hok : ∀ n, handover (run c₀ inp n) (inp n) = true → carries (run c₀ inp n) (inp n) = false)
    (t : ℕ) (hacc : acceptsAt c₀ inp t = true) :
    ∃ s ≤ t, trigAt c₀ inp s = true ∧ ∀ v, s ≤ v → v ≤ t → stAt c₀ inp v = .armed := by
  have harm := accepts_armed hacc
  have hheld := heldInArmed_run hok t harm
  have hcase : trigAt c₀ inp t = true ∨
      ((run c₀ inp t).trigPend = true ∨ tagHeld (run c₀ inp t) = true) := by
    rcases accepts_cases hacc with hf | ht
    · rw [trigFire_eq, Bool.and_eq_true, Bool.or_eq_true] at hf
      exact hf.1.imp_right Or.inl
    · exact Or.inr (Or.inr ht)
  rcases hcase with ht | hp
  · exact ⟨t, le_rfl, ht, fun v h₁ h₂ => by rwa [show v = t by omega]⟩
  · obtain ⟨s, hs, ht, hall⟩ := hheld hp
    exact ⟨s, hs.le, ht, hall⟩

/-- Arm in cycle 0, force in cycle 2. -/
def forcedIn (n : ℕ) : CaptureIn oneBit where
  probe := 0
  trigExtI := false
  bus := if n = 0 then .wr csrCtrl 1 else if n = 2 then .wr csrCtrl 4 else .idle

theorem forcedIn_smplCtrlZero : SmplCtrlZero forcedIn := by
  intro n hw ha
  unfold forcedIn at hw ha
  split_ifs at hw ha with h0 h2
  · exact absurd ha (by decide)
  · exact absurd ha (by decide)
  · cases hw

theorem forcedIn_accepted_in_armed :
    ∃ s ≤ 3, trigAt (blank oneBit) forcedIn s = true ∧
      ∀ v, s ≤ v → v ≤ 3 → stAt (blank oneBit) forcedIn v = .armed := by
  refine accepted_in_armed (blank oneBit) forcedIn (fun n _ => ?_) 3 (by decide)
  rw [carries, sampleEn_run _ forcedIn_smplCtrlZero, Bool.not_true, Bool.and_false]
  rfl

/-- Store one sample in four; an external pulse in `IDLE`, then the arm. -/
def strayIn (n : ℕ) : CaptureIn oneBit where
  probe := 0
  trigExtI := decide (n = 2)
  bus := if n = 0 then .wr csrSmplCtrl 3 else if n = 2 then .wr csrCtrl 1 else .idle

/-- The pulse of cycle 2 is accepted in cycle 5, although no source is asserted in
`ARMED`. -/
theorem strayIn_accepted :
    ¬ ∀ (p : Params) (c₀ : Capture p) (inp : ℕ → CaptureIn p) (t : ℕ),
      acceptsAt c₀ inp t = true →
        ∃ s ≤ t, trigAt c₀ inp s = true ∧ ∀ v, s ≤ v → v ≤ t → stAt c₀ inp v = .armed := by
  intro h
  obtain ⟨s, hs, ht, hall⟩ := h oneBit (blank oneBit) strayIn 5 (by decide)
  have hnone : ∀ s ≤ 5, trigAt (blank oneBit) strayIn s = true →
      stAt (blank oneBit) strayIn s ≠ .armed := by decide
  exact hnone s hs ht (hall s le_rfl hs)

/-! ### No lost trigger -/

theorem quiet_run (c₀ : Capture p) (inp : ℕ → CaptureIn p) (n : ℕ) :
    (run c₀ inp n).rle.Quiet :=
  invariant_of_step (fun n => (run c₀ inp n).rle.Quiet) Rle.Quiet.reset
    (fun n h => h.step ((run c₀ inp n).rleIn (inp n)) rfl) n

/-- A sample as the core stores it: under the encoder, as a data word. -/
def storedWord (p : Params) (x : BitVec p.probeW) : BitVec p.storeW :=
  if p.rleEn then (Rle.dataWord x).setWidth p.storeW else x.setWidth p.storeW

/-- The core takes its word out of the skid. -/
def fromSkid (c : Capture p) : Bool := p.rleEn && c.rle.pendValid

/-- The accepted word carries the sample of a store tick with a trigger: this cycle's,
or the one before if the word was put into the skid there. -/
theorem accepted_tick {u : ℕ} (h : acceptsAt c₀ inp u = true) :
    ∃ v, v + (fromSkid (run c₀ inp u)).toNat = u ∧ (run c₀ inp v).trigFire (inp v) = true ∧
      (p.rleEn && (run c₀ inp v).rle.skids ((run c₀ inp v).rleIn (inp v))) =
        fromSkid (run c₀ inp u) ∧
      (run c₀ inp u).sampleData (inp u) = storedWord p (run c₀ inp v).trigger.sampleO := by
  have hc := (acceptsAt_iff.mp h).1
  unfold coreTrig at hc
  unfold storedWord sampleData fromSkid
  cases hr : p.rleEn with
  | false =>
    rw [hr, if_neg (by simp)] at hc
    exact ⟨u, rfl, hc, rfl, rfl⟩
  | true =>
    rw [hr, if_pos rfl] at hc
    simp only [↓reduceIte, Bool.true_and]
    rcases Rle.trigOut_cases rfl hc with ⟨hv, ht, hw⟩ | ⟨hv, -, ht, h1, hw⟩
    · have hheld : tagHeld (run c₀ inp u) = true := by simp [tagHeld, hr, hv, ht]
      cases u with
      | zero => cases hv
      | succ v =>
        obtain ⟨-, hf, hskid, hword⟩ := tagHeld_succ hheld
        exact ⟨v, by rw [hv]; rfl, hf, hskid.trans hv.symm, by rw [hw, hword]⟩
    · exact ⟨u, by rw [hv]; rfl, ht, by rw [Rle.skids, h1, Bool.or_false], by rw [hw]; rfl⟩

/-- The accepted word carries the sample of a store tick with a trigger, this cycle's
or, out of the skid, the one before. -/
theorem accepted_word {u : ℕ} (h : acceptsAt c₀ inp u = true) :
    ∃ v, (v = u ∨ (p.rleEn = true ∧ v + 1 = u)) ∧ (run c₀ inp v).trigFire (inp v) = true ∧
      (run c₀ inp u).sampleData (inp u) = storedWord p (run c₀ inp v).trigger.sampleO := by
  obtain ⟨v, hv, hfire, -, hword⟩ := accepted_tick h
  refine ⟨v, ?_, hfire, hword⟩
  cases hs : fromSkid (run c₀ inp u) with
  | false => exact Or.inl (by simpa [hs] using hv)
  | true =>
    simp only [fromSkid, Bool.and_eq_true] at hs
    exact Or.inr ⟨hs.1, by simpa [fromSkid, hs] using hv⟩

/-- A tag in the skid reaches an `ARMED` core at once. -/
theorem accepts_of_tagHeld {n : ℕ} (h : tagHeld (run c₀ inp n) = true)
    (harm : stAt c₀ inp n = .armed) : acceptsAt c₀ inp n = true := by
  simp only [tagHeld, Bool.and_eq_true] at h
  obtain ⟨⟨hr, hv⟩, ht⟩ := h
  rw [acceptsAt_iff, coreTrig, sampleValid, hr, if_pos rfl, if_pos rfl, Rle.trigOut, Rle.wordValid,
    hv, if_pos rfl, ht]
  exact ⟨rfl, rfl, harm⟩

/-- A store tick with a trigger reaches an `ARMED` core, or its tag goes to the skid. -/
theorem accepts_or_tagHeld {n : ℕ} (h : (run c₀ inp n).trigFire (inp n) = true)
    (harm : stAt c₀ inp n = .armed) :
    acceptsAt c₀ inp n = true ∨ tagHeld (run c₀ inp (n + 1)) = true := by
  have htick : (run c₀ inp n).sampleEn = true := by
    rw [trigFire_eq, Bool.and_eq_true] at h
    exact h.2
  unfold tagHeld
  rw [acceptsAt_iff, coreTrig, sampleValid]
  cases hr : p.rleEn with
  | false => exact Or.inl ⟨h, htick, harm⟩
  | true =>
    have htag := Rle.trig_tagged (quiet_run c₀ inp n) (i := (run c₀ inp n).rleIn (inp n)) rfl htick h
    split at htag
    · refine Or.inr ?_
      simp only [Bool.true_and, Bool.and_eq_true]
      exact htag
    · exact Or.inl ⟨htag.1, htag.2, harm⟩

/-- The last cycle in which a trigger asserted before the tick `t'` is accepted. -/
def deadline (p : Params) (t' : ℕ) : ℕ := if p.rleEn then t' + 1 else t'

/-- Between two store ticks an unaccepted trigger is held. -/
theorem held_until_tick {t t' : ℕ} (harm : stAt c₀ inp t = .armed)
    (ht : (trigAt c₀ inp t || (run c₀ inp t).trigPend) = true) (hle : t ≤ t')
    (hgap : ∀ v, t ≤ v → v < t' → (run c₀ inp v).sampleEn = false)
    (hd : ∀ v, t ≤ v → v < t' → disarmAt inp v = false)
    (hno : ∀ v, t ≤ v → v < t' → acceptsAt c₀ inp v = false) :
    stAt c₀ inp t' = .armed ∧ (trigAt c₀ inp t' || (run c₀ inp t').trigPend) = true := by
  induction t', hle using Nat.le_induction with
  | base => exact ⟨harm, ht⟩
  | succ n hn ih =>
    obtain ⟨ha, hp⟩ := ih (fun v h₁ h₂ => hgap v h₁ (by omega)) (fun v h₁ h₂ => hd v h₁ (by omega))
      (fun v h₁ h₂ => hno v h₁ (by omega))
    refine ⟨armed_stays ha (hno n hn (by omega)) (hd n hn (by omega)), ?_⟩
    rw [trigPend_succ, hp, hgap n hn (by omega)]
    simp

/-- A held trigger is accepted with the next store tick. -/
theorem accepted_by_deadline {t t' : ℕ} (harm : stAt c₀ inp t = .armed)
    (ht : (trigAt c₀ inp t || (run c₀ inp t).trigPend) = true) (hle : t ≤ t')
    (htick : (run c₀ inp t').sampleEn = true)
    (hgap : ∀ v, t ≤ v → v < t' → (run c₀ inp v).sampleEn = false)
    (hd : ∀ v, t ≤ v → v < deadline p t' → disarmAt inp v = false) :
    ∃ u, t ≤ u ∧ u ≤ deadline p t' ∧ acceptsAt c₀ inp u = true := by
  have hdl : t' ≤ deadline p t' := by unfold deadline; split <;> omega
  by_cases hno : ∃ v, t ≤ v ∧ v < t' ∧ acceptsAt c₀ inp v = true
  · obtain ⟨v, h₁, h₂, hacc⟩ := hno
    exact ⟨v, h₁, by omega, hacc⟩
  · have hno' : ∀ v, t ≤ v → v < t' → acceptsAt c₀ inp v = false := by
      intro v h₁ h₂
      by_contra hacc
      exact hno ⟨v, h₁, h₂, by simpa using hacc⟩
    obtain ⟨harm', hp⟩ := held_until_tick harm ht hle hgap (fun v h₁ h₂ => hd v h₁ (by omega)) hno'
    have hfire : (run c₀ inp t').trigFire (inp t') = true := by rw [trigFire_eq, hp, htick]; rfl
    cases hacc : acceptsAt c₀ inp t' with
    | true => exact ⟨t', hle, hdl, hacc⟩
    | false =>
      rcases accepts_or_tagHeld hfire harm' with hacc' | hheld
      · rw [hacc] at hacc'
        cases hacc'
      · have hr := (tagHeld_succ hheld).1
        have hdl' : deadline p t' = t' + 1 := by rw [deadline, hr, if_pos rfl]
        have harm'' := armed_stays harm' hacc (hd t' hle (by omega))
        exact ⟨t' + 1, by omega, by omega, accepts_of_tagHeld hheld harm''⟩

/-- A trigger carried over from `FILLING` does reach the core. -/
theorem carried_accepted {n t' : ℕ} (hover : handover (run c₀ inp n) (inp n) = true)
    (hcarry : carries (run c₀ inp n) (inp n) = true) (hle : n + 1 ≤ t')
    (htick : (run c₀ inp t').sampleEn = true)
    (hgap : ∀ v, n + 1 ≤ v → v < t' → (run c₀ inp v).sampleEn = false)
    (hd : ∀ v, n + 1 ≤ v → v < deadline p t' → disarmAt inp v = false) :
    ∃ u, n + 1 ≤ u ∧ u ≤ deadline p t' ∧ acceptsAt c₀ inp u = true := by
  have harm : stAt c₀ inp (n + 1) = .armed := armed_of_handover hover
  simp only [carries, Bool.or_eq_true, Bool.and_eq_true] at hcarry
  rcases hcarry with ⟨htrig, hgap'⟩ | ⟨⟨hr, hfire⟩, hskid⟩
  · have hpend : (run c₀ inp (n + 1)).trigPend = true := by
      rw [trigPend_succ, Bool.and_eq_true, Bool.or_eq_true]
      exact ⟨htrig, hgap'⟩
    exact accepted_by_deadline harm (by rw [hpend, Bool.or_true]) hle htick hgap hd
  · have htick' : (run c₀ inp n).sampleEn = true := by
      rw [trigFire_eq, Bool.and_eq_true] at hfire
      exact hfire.2
    have htag := Rle.trig_tagged (quiet_run c₀ inp n) (i := (run c₀ inp n).rleIn (inp n)) rfl
      htick' hfire
    rw [hskid, if_pos rfl] at htag
    have hheld : tagHeld (run c₀ inp (n + 1)) = true := by
      simp only [tagHeld, hr, Bool.true_and, Bool.and_eq_true]
      exact htag
    refine ⟨n + 1, le_rfl, ?_, accepts_of_tagHeld hheld harm⟩
    unfold deadline
    split <;> omega

/-- A force strobed in `FILLING` or `ARMED`, neither cancelled nor used up since. -/
def ForcedBefore (c₀ : Capture p) (inp : ℕ → CaptureIn p) (t : ℕ) : Prop :=
  ∃ c < t, (inp c).bus.forceStrobe = true ∧ (stAt c₀ inp c = .filling ∨ stAt c₀ inp c = .armed) ∧
    ∀ v, c ≤ v → v < t → disarmAt inp v = false ∧ acceptsAt c₀ inp v = false

/-- A force is held from its strobe until it is accepted. -/
theorem forcePend_of_forcedBefore {t : ℕ} (h : ForcedBefore c₀ inp t) :
    (run c₀ inp t).csr.forcePend = true := by
  obtain ⟨c, hlt, hstrobe, hst, hrest⟩ := h
  have hkeep : ∀ v, c ≤ v → v ≤ t → stAt c₀ inp v = .filling ∨ stAt c₀ inp v = .armed := by
    intro v h₁
    induction v, h₁ using Nat.le_induction with
    | base => exact fun _ => hst
    | succ v hv ih =>
      intro h₂
      obtain ⟨hd, hacc⟩ := hrest v hv (by omega)
      rcases ih (by omega) with hs | hs
      · exact filling_succ hs hd
      · exact Or.inr (armed_stays hs hacc hd)
  have hnext : ∀ v, c ≤ v → v < t → (run c₀ inp (v + 1)).csr.forcePend =
      ((inp v).bus.forceStrobe || (run c₀ inp v).csr.forcePend) := by
    intro v h₁ h₂
    change (run c₀ inp v).csr.forcePendNext (inp v).bus (stAt c₀ inp v) = _
    have hd : (inp v).bus.disarm = false := (hrest v h₁ h₂).1
    rcases hkeep v h₁ (by omega) with hs | hs <;>
      cases hf : (inp v).bus.forceStrobe <;> simp [Csr.forcePendNext, hd, hs, hf]
  induction t, hlt using Nat.le_induction with
  | base => rw [hnext c le_rfl (Nat.lt_succ_self c), hstrobe, Bool.true_or]
  | succ t ht ih =>
    rw [hnext t (by omega) (Nat.lt_succ_self t),
      ih (fun v h₁ h₂ => hrest v h₁ (by omega)) (fun v h₁ h₂ => hkeep v h₁ (by omega))
        (fun v h₁ h₂ => hnext v h₁ (by omega)), Bool.or_true]

/-- A trigger asserted in `ARMED` is accepted with the next store tick, one cycle
later at most under the encoder, on the word of a sample that fired. -/
theorem asserted_trigger_accepted (c₀ : Capture p) (inp : ℕ → CaptureIn p) (t t' : ℕ)
    (harm : stAt c₀ inp t = .armed)
    (hsrc : (run c₀ inp t).trigger.trigSeqQ = true ∨ (inp t).trigExtI = true ∨
      ForcedBefore c₀ inp t)
    (hle : t ≤ t') (htick : (run c₀ inp t').sampleEn = true)
    (hgap : ∀ v, t ≤ v → v < t' → (run c₀ inp v).sampleEn = false)
    (hd : ∀ v, t ≤ v → v < deadline p t' → disarmAt inp v = false) :
    ∃ u v, t ≤ u ∧ u ≤ deadline p t' ∧ acceptsAt c₀ inp u = true ∧
      (v = u ∨ (p.rleEn = true ∧ v + 1 = u)) ∧ (run c₀ inp v).trigFire (inp v) = true ∧
      (run c₀ inp u).sampleData (inp u) = storedWord p (run c₀ inp v).trigger.sampleO := by
  have htrig : trigAt c₀ inp t = true := by
    simp only [trigAt, trig, Trigger.trig, trigIn, Bool.or_eq_true]
    rcases hsrc with h | h | h
    · exact Or.inl (Or.inl h)
    · exact Or.inr h
    · exact Or.inl (Or.inr (forcePend_of_forcedBefore h))
  obtain ⟨u, h₁, h₂, hacc⟩ := accepted_by_deadline harm (by rw [htrig, Bool.true_or]) hle htick hgap hd
  obtain ⟨v, hv, hfire, hword⟩ := accepted_word hacc
  exact ⟨u, v, h₁, h₂, hacc, hv, hfire, hword⟩

/-- The force strobed in cycle 2 is accepted in cycle 3. -/
theorem forcedIn_trigger_accepted :
    ∃ u v, 3 ≤ u ∧ u ≤ deadline oneBit 3 ∧ acceptsAt (blank oneBit) forcedIn u = true ∧
      (v = u ∨ (oneBit.rleEn = true ∧ v + 1 = u)) ∧
      (run (blank oneBit) forcedIn v).trigFire (forcedIn v) = true ∧
      (run (blank oneBit) forcedIn u).sampleData (forcedIn u) =
        storedWord oneBit (run (blank oneBit) forcedIn v).trigger.sampleO := by
  have hforced : ForcedBefore (blank oneBit) forcedIn 3 := by
    refine ⟨2, by decide, by decide, Or.inr (by decide), fun v h₁ h₂ => ?_⟩
    obtain rfl : v = 2 := by omega
    exact ⟨by decide, by decide⟩
  refine asserted_trigger_accepted (blank oneBit) forcedIn 3 3 (by decide)
    (Or.inr (Or.inr hforced)) le_rfl (by decide) (fun v h₁ h₂ => by omega) fun v h₁ h₂ => ?_
  rw [show deadline oneBit 3 = 3 by decide] at h₂
  omega

end FpgaScope.Capture
