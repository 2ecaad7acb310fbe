import FpgaScope.Capture.Decimation
import FpgaScope.Core.Progress

/-! The window count from the bus word to the parked capture. The register takes the low
byte of the word; a run that is left alone parks after as many windows as the register
says. -/

namespace FpgaScope.Capture

open Clocked

variable {p : Params} {c₀ : Capture p} {inp : ℕ → CaptureIn p}

/-! ### Samples keep coming -/

/-- Under the encoder too words follow from samples: a run of repeats is counted at most
to its maximum. -/
theorem words_recur (h : Recurs fun n => (run c₀ inp n).sampleEn = true) :
    Recurs fun n => (coreInp c₀ inp n).sampleValid = true := by
  intro n
  change ∃ m, n ≤ m ∧ (run c₀ inp m).sampleValid (inp m) = true
  unfold sampleValid
  cases hr : p.rleEn with
  | false =>
    simp only [Bool.false_eq_true, ↓reduceIte]
    exact h n
  | true =>
    simp only [↓reduceIte]
    have hend := h.exhausts (Q := fun _ => True)
      (R := fun k => ∃ m, n ≤ m ∧ m < k ∧ (run c₀ inp m).rle.wordValid ((run c₀ inp m).rleIn (inp m)) = true)
      (fun k => (Rle.maxRun p.depthLog2 - 1 - (run c₀ inp k).rle.acc).toNat) (n := n) trivial ?_
    · obtain ⟨k, -, m, hm, -, hv⟩ := hend
      exact ⟨m, hm, hv⟩
    · intro k hk _
      cases hv : (run c₀ inp k).rle.wordValid ((run c₀ inp k).rleIn (inp k)) with
      | true => exact Or.inl ⟨k, hk, Nat.lt_succ_self k, hv⟩
      | false =>
        refine Or.inr ⟨trivial, ?_⟩
        have hacc : (run c₀ inp (k + 1)).rle = (run c₀ inp k).rle.step ((run c₀ inp k).rleIn (inp k)) :=
          rfl
        rcases Rle.silent_step rfl hv with ⟨hno, hsame⟩ | ⟨hne, hcount⟩
        · rw [hacc, hsame]
          refine ⟨le_rfl, fun hp => ?_⟩
          rw [show (run c₀ inp k).sampleEn = false from hno] at hp
          cases hp
        · have hlt : (Rle.maxRun p.depthLog2 - 1 - ((run c₀ inp k).rle.acc + 1)).toNat <
              (Rle.maxRun p.depthLog2 - 1 - (run c₀ inp k).rle.acc).toNat := by
            generalize Rle.maxRun p.depthLog2 - 1 = top at hne ⊢
            generalize (run c₀ inp k).rle.acc = acc at hne ⊢
            have hleft : top - acc ≠ 0 := fun h0 => hne (sub_eq_zero.mp h0).symm
            have hpos : (top - acc).toNat ≠ 0 := fun h0 => hleft (BitVec.eq_of_toNat_eq h0)
            rw [sub_add_eq_sub_sub, Ring.toNat_pred hleft]
            omega
          rw [hacc, hcount]
          exact ⟨hlt.le, fun _ => hlt⟩

/-! ### A run that is left alone -/

/-- The run armed in cycle `a` is neither aborted nor armed anew, its windows are
triggered, and a storage qualifier, if one is on, keeps hitting. -/
structure RunsOn (c₀ : Capture p) (inp : ℕ → CaptureIn p) (a : ℕ) : Prop where
  kept : ∀ v, a < v → disarmAt inp v = false
  quiet : ∀ v, a < v → (run c₀ inp v).core.armAccept (coreInp c₀ inp v) = false
  triggers : ∀ n, a < n → stAt c₀ inp n = .armed → ∃ m, n ≤ m ∧ acceptsAt c₀ inp m = true
  qualified : (run c₀ inp (a + 1)).csr.qualEn = true →
    Recurs fun n => (run c₀ inp n).sampleEn = true

/-- Only a disarm ends a run. -/
theorem busy_of_kept {a : ℕ} (harm : (run c₀ inp a).core.armAccept (coreInp c₀ inp a) = true)
    (hk : ∀ v, a < v → disarmAt inp v = false) (n : ℕ) (hn : a < n) : stAt c₀ inp n ≠ .idle := by
  induction n, hn using Nat.le_induction with
  | base =>
    have hstart : (run c₀ inp (a + 1)).core = _ := Core.startRun_of_armAccept harm
    rw [stAt, hstart]
    simp [Core.startRun]
  | succ n hn ih =>
    have hm := move_at c₀ inp n
    unfold stAt at ih ⊢
    generalize (run c₀ inp (n + 1)).core = c' at hm ⊢
    cases hm with
    | abort hd => exact absurd (hd.symm.trans (hk n hn)) (by decide)
    | start | backlog | trigger | complete | rearm => simp [Core.startRun, Core.nextWindow]
    | rest _ hs _ => exact absurd hs ih
    | fill | circulate | post | park => exact ih

theorem RunsOn.unhindered {a : ℕ} (h : RunsOn c₀ inp a)
    (harm : (run c₀ inp a).core.armAccept (coreInp c₀ inp a) = true) :
    Core.Unhindered c₀.core (coreInp c₀ inp) a := by
  have hrun := core_run c₀ inp
  refine ⟨by rw [← hrun]; exact harm, fun v hv => by rw [← hrun]; exact h.quiet v hv, h.kept,
    words_recur ?_, fun n hn hs => ?_⟩
  · cases hq : (run c₀ inp (a + 1)).csr.qualEn with
    | true => exact h.qualified hq
    | false =>
      -- without a qualifier every decimation tick stores
      intro n
      obtain ⟨m, hm, ht⟩ := decTick_recurs c₀ inp (max n (a + 1))
      have hheld : (run c₀ inp m).csr.qualEn = false := by
        have hlock := configOut_locked ((le_max_right _ _).trans hm) fun v h₁ _ =>
          busy_of_kept harm h.kept v h₁
        exact (congrArg ConfigOut.qualEn hlock).trans hq
      refine ⟨m, (le_max_left _ _).trans hm, ?_⟩
      change (run c₀ inp m).sampleEn = true
      rw [sampleEn, ht, qualHit, hheld]
      rfl
  · rw [← hrun] at hs
    obtain ⟨m, hm, hacc⟩ := h.triggers n hn hs
    exact ⟨m, hm, by rw [← hrun]; exact hacc⟩

/-- Every sample is stored, some trigger is always asserted, and nothing is written. -/
theorem runsOn_triggered (hr : p.rleEn = false) (hz : SmplCtrlZero inp) {a : ℕ}
    (htrig : ∀ n, trigAt c₀ inp n = true) (hbus : ∀ n, a < n → (inp n).bus.write = false) : RunsOn c₀ inp a where
  kept n hn := by
    rw [disarmAt, CsrBus.disarm, CsrBus.wrCtrl, hbus n hn]
    rfl
  quiet n hn := by
    change ((inp n).bus.arm && _ && _) = false
    rw [CsrBus.arm, CsrBus.wrCtrl, hbus n hn]
    rfl
  triggers n _ hs := by
    refine ⟨n, le_rfl, ?_⟩
    have htick := sampleEn_run c₀ hz n
    rw [acceptsAt_iff, coreTrig, sampleValid, hr, if_neg (by decide), if_neg (by decide), trigFire_eq, htrig n,
      htick]
    exact ⟨rfl, rfl, hs⟩
  qualified _ n := ⟨n, le_rfl, sampleEn_run c₀ hz n⟩

/-! ### The count -/

theorem windowsQ_succ (n : ℕ) : (run c₀ inp (n + 1)).csr.windowsQ =
    ((idleWrite c₀ inp csrWindows n).bind (windowsGiven p.depthLog2)).getD
      (run c₀ inp n).csr.windowsQ := by
  rw [windows_latest, latest_succ, ← windows_latest]

/-- In cycle `t` the word `v` is written to `WINDOWS`, in `IDLE` and with `cfg_err` clear. -/
structure WindowsWrite (c₀ : Capture p) (inp : ℕ → CaptureIn p) (t : ℕ) (v : BitVec 32) :
    Prop where
  write : (inp t).bus.write = true
  addr : (inp t).bus.addr = csrWindows
  wdata : (inp t).bus.wdata = v
  idle : stAt c₀ inp t = .idle
  clear : (run c₀ inp t).csr.cfgErr = false

/-- `a` is the next arm after cycle `t`, with no other write to `WINDOWS` in between. -/
structure NextArm (c₀ : Capture p) (inp : ℕ → CaptureIn p) (t a : ℕ) : Prop where
  lt : t < a
  accept : (run c₀ inp a).core.armAccept (coreInp c₀ inp a) = true
  first : ∀ v, t < v → v < a → (run c₀ inp v).core.armAccept (coreInp c₀ inp v) = false
  kept : ∀ v, t < v → v < a → idleWrite c₀ inp csrWindows v = none

/-- All windows are captured and the FSM stays in `DONE`. -/
def parkedAt (c₀ : Capture p) (inp : ℕ → CaptureIn p) (n : ℕ) : Prop :=
  stAt c₀ inp n = .done ∧ ¬ (run c₀ inp n).core.windowsDone < (run c₀ inp n).core.windowsQ

theorem parkedAt.busy {n : ℕ} (h : parkedAt c₀ inp n) : stAt c₀ inp n ≠ .idle := by
  rw [h.1]
  decide

/-- A run that is left alone parks. -/
theorem RunsOn.parks {a : ℕ} (h : RunsOn c₀ inp a)
    (harm : (run c₀ inp a).core.armAccept (coreInp c₀ inp a) = true) :
    ∃ d, a < d ∧ ∀ m, d ≤ m → parkedAt c₀ inp m := by
  obtain ⟨hL, hL'⟩ := depthLog2_bounds p
  obtain ⟨d, hd, hpark⟩ := (h.unhindered harm).parks hL hL' (pretrigHeld c₀ inp)
  refine ⟨d, hd, fun m hm => ?_⟩
  rw [parkedAt, stAt, core_run]
  exact hpark m hm

/-- The accepted window count is the captured window count: an unrefused word `v` gives
`max v 1` windows, and a word that is too large is refused. -/
structure CountCaptured (c₀ : Capture p) (inp : ℕ → CaptureIn p) (t : ℕ) (v : BitVec 32) :
    Prop where
  parks : (run c₀ inp (t + 1)).csr.cfgErr = false → ∀ a, NextArm c₀ inp t a → RunsOn c₀ inp a →
    ∃ d, a < d ∧ ∀ m, d ≤ m →
      parkedAt c₀ inp m ∧ (run c₀ inp m).core.windowsDone.toNat = max v.toNat 1
  only : (run c₀ inp (t + 1)).csr.cfgErr = false → ∀ a, NextArm c₀ inp t a →
    ∀ n, Core.LastArm c₀.core (coreInp c₀ inp) a n → parkedAt c₀ inp n →
      (run c₀ inp n).core.windowsDone.toNat = max v.toNat 1
  refuse : min 255 (2 ^ p.depthLog2 / 2) < v.toNat →
    (run c₀ inp (t + 1)).csr.windowsQ = (run c₀ inp t).csr.windowsQ ∧
      (run c₀ inp (t + 1)).csr.cfgErr = true

/-- A parked core has captured as many windows as the register says. -/
theorem parked_count {a n : ℕ} (ha : Core.LastArm c₀.core (coreInp c₀ inp) a n)
    (hpark : parkedAt c₀ inp n) :
    (run c₀ inp n).core.windowsDone = (run c₀ inp a).csr.windowsQ := by
  obtain ⟨hL, hL'⟩ := depthLog2_bounds p
  have hcnt := Core.counted_run hL hL' ha (windows_bounds c₀ inp a).1
  rw [← core_run] at hcnt
  obtain ⟨hst, hall⟩ := hpark
  rw [← windowsQ_armed ha]
  apply BitVec.eq_of_toNat_eq
  rw [BitVec.lt_def] at hall
  have := hcnt.idx_lt
  have := hcnt.done_le
  omega

/-- The register after an unrefused write, up to the arm. -/
theorem windowsQ_written {t a : ℕ} {v : BitVec 32} {w : BitVec 8} (hw : WindowsWrite c₀ inp t v)
    (hv : windowsGiven p.depthLog2 v = some w) (ha : NextArm c₀ inp t a) :
    (run c₀ inp a).csr.windowsQ = w := by
  have hgiven : idleWrite c₀ inp csrWindows t = some v := by
    rw [idleWrite, if_pos ⟨hw.write, hw.addr, hw.idle⟩, hw.wdata]
  rw [windows_latest]
  refine latest_held (by rw [hgiven, Option.bind_some, hv]) ha.lt fun u h₁ h₂ => ?_
  rw [ha.kept u h₁ h₂, Option.bind_none]

/-- `cfg_err` after the write says whether the word was refused. -/
theorem cfgErr_written {t : ℕ} {v : BitVec 32} (hw : WindowsWrite c₀ inp t v) :
    (run c₀ inp (t + 1)).csr.cfgErr = true ↔ windowsGiven p.depthLog2 v = none := by
  have hsoft : (inp t).bus.softRst = false := by
    rw [CsrBus.softRst, CsrBus.wrCtrl, hw.addr, show (csrWindows == csrCtrl) = false by decide,
      Bool.and_false, Bool.false_and]
  rw [cfgErr_succ, hw.clear, BadWrite, hw.idle, hw.wdata]
  simp [hsoft, hw.write, hw.addr]

/-- Only the low byte of the word is looked at: the count law holds exactly for words of
one byte and for those whose low byte alone is too large. -/
theorem window_count_law (c₀ : Capture p) (inp : ℕ → CaptureIn p) (t : ℕ) (v : BitVec 32)
    (hw : WindowsWrite c₀ inp t v) :
    CountCaptured c₀ inp t v ↔ v.toNat < 256 ∨ 2 ^ p.depthLog2 / 2 < v.toNat % 256 := by
  obtain ⟨hL, hL'⟩ := depthLog2_bounds p
  have herr := cfgErr_written hw
  have hnone := windowsGiven_none hL v
  constructor
  · intro h
    by_contra hno
    push Not at hno
    obtain ⟨hbig, hbyte⟩ := hno
    have hset := (h.refuse (by omega)).2
    rw [herr, hnone] at hset
    omega
  · intro hv
    have hcount : (run c₀ inp (t + 1)).csr.cfgErr = false → ∀ a, NextArm c₀ inp t a →
        (run c₀ inp a).csr.windowsQ.toNat = max v.toNat 1 := by
      intro hclear a ha
      rw [← Bool.not_eq_true, herr] at hclear
      obtain ⟨w, hsome⟩ := Option.ne_none_iff_exists'.mp hclear
      rw [windowsQ_written hw hsome ha, (windowsGiven_some hsome).1]
      rw [hnone] at hclear
      rw [Nat.mod_eq_of_lt (by omega)]
    refine ⟨fun hclear a ha hon => ?_, fun hclear a ha n hla hpark => ?_, fun hlarge => ?_⟩
    · obtain ⟨d, hd, hpark⟩ := hon.parks ha.accept
      refine ⟨d, hd, fun m hm => ?_⟩
      rw [parked_count ((hon.unhindered ha.accept).lastArm (by omega)) (hpark m hm)]
      exact ⟨hpark m hm, hcount hclear a ha⟩
    · rw [parked_count hla hpark]
      exact hcount hclear a ha
    · have hrefused : windowsGiven p.depthLog2 v = none := by
        rw [hnone]
        rcases hv with hv | hv
        · rw [Nat.mod_eq_of_lt hv]
          omega
        · exact hv
      refine ⟨?_, herr.mpr hrefused⟩
      rw [windowsQ_succ, idleWrite, if_pos ⟨hw.write, hw.addr, hw.idle⟩, hw.wdata, Option.bind_some,
        hrefused, Option.getD_none]

/-- `v` windows asked for in cycle 0, armed in cycle 1, the external trigger always on and
`STATUS` read all the time. -/
def windowsIn (v : BitVec 32) (n : ℕ) : CaptureIn oneBit where
  probe := BitVec.ofNat 1 n
  trigExtI := true
  bus := if n = 0 then .wr csrWindows v else if n = 1 then .wr csrCtrl 1 else .rd csrStatus

theorem windowsIn_bus (v : BitVec 32) {n : ℕ} (hn : 1 < n) :
    (windowsIn v n).bus = .rd csrStatus := by
  rw [windowsIn, if_neg (by omega), if_neg (by omega)]

theorem windowsIn_smplCtrlZero (v : BitVec 32) : SmplCtrlZero (windowsIn v) := by
  intro n hw ha
  unfold windowsIn at hw ha
  split_ifs at hw ha with h0 h1
  · exact absurd ha (show csrWindows ≠ csrSmplCtrl by decide)
  · exact absurd ha (show csrCtrl ≠ csrSmplCtrl by decide)
  · cases hw

theorem windowsIn_runsOn (v : BitVec 32) : RunsOn (blank oneBit) (windowsIn v) 1 := by
  refine runsOn_triggered rfl (windowsIn_smplCtrlZero v) (fun n => ?_) fun n hn => ?_
  · simp [trigAt, trig, Trigger.trig, trigIn, windowsIn]
  · rw [windowsIn_bus v hn]
    rfl

/-- The arm in cycle 1 is accepted and the run parks. -/
theorem windowsIn_parks (v : BitVec 32)
    (harm : (run (blank oneBit) (windowsIn v) 1).core.armAccept (coreInp (blank oneBit) (windowsIn v) 1) = true) :
    ∃ d, 1 < d ∧ ∀ m, d ≤ m → Core.LastArm (blank oneBit).core (coreInp (blank oneBit) (windowsIn v)) 1 m ∧
      parkedAt (blank oneBit) (windowsIn v) m := by
  have hon := windowsIn_runsOn v
  obtain ⟨d, hd, hpark⟩ := hon.parks harm
  exact ⟨d, hd, fun m hm => ⟨(hon.unhindered harm).lastArm (by omega), hpark m hm⟩⟩

theorem windowsIn_write (v : BitVec 32) : WindowsWrite (blank oneBit) (windowsIn v) 0 v :=
  ⟨rfl, rfl, rfl, rfl, rfl⟩

/-- 128 windows are asked for and captured. -/
theorem windowsIn_count : ∃ d, 1 < d ∧ ∀ m, d ≤ m → parkedAt (blank oneBit) (windowsIn 128) m ∧
    (run (blank oneBit) (windowsIn 128) m).core.windowsDone.toNat = 128 := by
  have h := (window_count_law (blank oneBit) (windowsIn 128) 0 128 (windowsIn_write 128)).mpr
    (Or.inl (by decide))
  have ha : NextArm (blank oneBit) (windowsIn 128) 0 1 :=
    ⟨by decide, by decide, fun v h₁ h₂ => by omega, fun v h₁ h₂ => by omega⟩
  exact h.parks (by decide) 1 ha (windowsIn_runsOn 128)

/-- 258 windows are asked for; the register takes the 2 of the low byte without an error. -/
theorem windowsIn_not_refused :
    ¬ ∀ (p : Params) (c₀ : Capture p) (inp : ℕ → CaptureIn p) (t : ℕ) (v : BitVec 32),
      WindowsWrite c₀ inp t v → CountCaptured c₀ inp t v := by
  intro h
  have hlaw := h oneBit (blank oneBit) (windowsIn 258) 0 258 (windowsIn_write 258)
  exact absurd (hlaw.refuse (by decide)).2 (by decide)

end FpgaScope.Capture
