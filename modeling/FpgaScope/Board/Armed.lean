import FpgaScope.Board.Setup

/-! The script from the arm to `DONE`. Nothing the script does from the arm on stops the capture,
and a capture of one window that is done stays so: the loops of the script see it, unless it
takes longer than all their polls. -/

namespace FpgaScope

open Clocked Capture Console

variable {p : Params} {c₀ : Capture p} {inp : ℕ → CaptureIn p} {b : BusSignals (BitVec 32) (BitVec 32)}

/-- Armed in cycle `a` and not interfered with since. -/
structure Armed (c₀ : Capture p) (inp : ℕ → CaptureIn p) (a n : ℕ) : Prop where
  lt : a < n
  accept : (run c₀ inp a).core.armAccept (coreInp c₀ inp a) = true
  calm : ∀ v, a < v → v < n → (inp v).bus.wrCtrl = false

namespace Armed

variable {a n : ℕ}

theorem step (h : Armed c₀ inp a n) (hx : (inp n).bus.wrCtrl = false) : Armed c₀ inp a (n + 1) where
  lt := Nat.lt_succ_of_lt h.lt
  accept := h.accept
  calm v h₁ h₂ := by
    rcases Nat.lt_succ_iff_lt_or_eq.mp h₂ with hlt | rfl
    · exact h.calm v h₁ hlt
    · exact hx

theorem restrict (h : Armed c₀ inp a n) {m : ℕ} (h₁ : a < m) (h₂ : m ≤ n) : Armed c₀ inp a m :=
  ⟨h₁, h.accept, fun v hv hv' => h.calm v hv (by omega)⟩

theorem lastArm (h : Armed c₀ inp a n) : Core.LastArm c₀.core (coreInp c₀ inp) a n where
  lt := h.lt
  accept := by
    rw [← core_run]
    exact h.accept
  quiet v h₁ h₂ := by
    have harm : (coreInp c₀ inp v).arm = false := CsrBus.arm_off (h.calm v h₁ h₂)
    rw [Core.armAccept, harm, Bool.false_and, Bool.false_and]

/-- A capture of one window that is done stays as it is. -/
theorem parked (h : Armed c₀ inp a n) (hone : (run c₀ inp a).csr.windowsQ = 1) {m : ℕ} (h₁ : a < m) (h₂ : m ≤ n)
    (hdone : stAt c₀ inp m = .done) :
    (run c₀ inp n).core.Rests ∧ (run c₀ inp m).core.Parked (run c₀ inp n).core := by
  have hrest : (run c₀ inp m).core.Rests :=
    Or.inr (onlyWindow_of_done (h.restrict h₁ h₂).lastArm hone hdone).1
  induction n, h₂ using Nat.le_induction with
  | base => exact ⟨hrest, .refl _⟩
  | succ n h₂ ih =>
    obtain ⟨hrest, hpark⟩ := ih (h.restrict (by omega) (Nat.le_succ n))
    have hcalm := h.calm n (by omega) (Nat.lt_succ_self n)
    obtain ⟨hrest', hpark'⟩ := hrest.step (i := coreInp c₀ inp n) (CsrBus.arm_off hcalm) (CsrBus.disarm_off hcalm)
    exact ⟨hrest', hpark.trans hpark'⟩

theorem done (h : Armed c₀ inp a n) (hone : (run c₀ inp a).csr.windowsQ = 1) {m : ℕ} (h₁ : a < m) (h₂ : m ≤ n)
    (hdone : stAt c₀ inp m = .done) : stAt c₀ inp n = .done :=
  (h.parked hone h₁ h₂ hdone).2.st.trans hdone

end Armed

/-! ### `STATUS` -/

theorem statusWord_state {W L T : ℕ} (c : Csr p) (core : Core W L T) :
    ((c.statusWord core).toNat &&& 0x7 = stateDone) ↔ core.st = .done := by
  have hword : (c.statusWord core).toNat &&& 0x7 = core.st.code.toNat :=
    congrArg Host.Status.state (Host.decode_statusWord c core)
  rw [hword]
  exact Host.code_done core.st

theorem statusWord_wrapped {W L T : ℕ} (c : Csr p) (core : Core W L T) :
    ((c.statusWord core).toNat >>> 4) &&& 1 = core.wrapped.toNat := by
  have hcode := core.st.code.isLt
  have h₁ := Bool.toNat_le core.wrapped
  have h₂ := Bool.toNat_le core.triggered
  have h₃ := Bool.toNat_le c.cfgErr
  rw [Nat.shiftRight_eq_div_pow, Nat.and_one_is_mod, Host.statusWord_toNat]
  omega

theorem OnWindow.status (w : OnWindow c₀ inp b) {u v : ℕ} {x : BitVec 32} (hx : b.issued u = some (.read sStatus))
    (h : Responds b u v x) : v = u + 1 ∧ x = (run c₀ inp u).csr.statusWord (run c₀ inp u).core := by
  obtain ⟨d, hd⟩ := w.read u sStatus hx
  obtain ⟨hv, hvalue⟩ := w.answer hx h
  rw [hvalue (by decide), csrRdata, hd]
  exact ⟨hv, rfl⟩

/-! ### The loops -/

theorem wrAll_only {Q : ByteAccess → Prop} {xs : List (BitVec 32 × BitVec 32)}
    (hxs : ∀ x ∈ xs, Q (.write x.1 x.2)) : (wrAll xs).Only Q := by
  induction xs with
  | nil => trivial
  | cons x xs ih => exact ⟨hxs x List.mem_cons_self, ih fun y hy => hxs y (List.mem_cons_of_mem _ hy)⟩

theorem burst_calm (len : ℤ) : ∀ x ∈ burst len, ctrlWrite (.write x.1 x.2) = false := by
  simp only [burst, List.forall_mem_cons]
  exact ⟨rfl, rfl, rfl, fun x hx => by cases hx⟩

theorem waitArmed_only {Q : ByteAccess → Prop} (hQ : Q (.read sStatus)) (i : ℕ) : (waitArmed i).Only Q := by
  induction i with
  | zero => trivial
  | succ i ih =>
    refine ⟨hQ, fun d => ?_⟩
    change Script.Only _ (if _ then _ else if _ then _ else _)
    split
    · trivial
    · split
      · trivial
      · exact ih

/-- In `IDLE` from cycle `s` to cycle `a`, with the configuration `c`. -/
structure Arming (c₀ : Capture p) (inp : ℕ → CaptureIn p) (s : ℕ) (c : Csr p) (a : ℕ) : Prop where
  since : s ≤ a
  idle : ∀ v, s ≤ v → v ≤ a → stAt c₀ inp v = .idle
  config : (run c₀ inp a).csr.config = c

/-- `k` polls after the arm in cycle `a` not done. -/
structure Watch (c₀ : Capture p) (inp : ℕ → CaptureIn p) (a k n : ℕ) : Prop where
  armed : Armed c₀ inp a n
  late : a + 1 + 2 * k ≤ n
  busy : ∀ v, a < v → v < a + 2 * k → stAt c₀ inp v ≠ .done

/-- Armed in cycle `a`, and found done with the `STATUS` word `st`. -/
structure Shown (c₀ : Capture p) (inp : ℕ → CaptureIn p) (a st n : ℕ) : Prop where
  armed : Armed c₀ inp a n
  found : ∃ m, a < m ∧ m < n ∧ stAt c₀ inp m = .done ∧
    st = ((run c₀ inp m).csr.statusWord (run c₀ inp m).core).toNat

/-- After some polls: done, with the last word, or not yet. -/
def Polled (c₀ : Capture p) (inp : ℕ → CaptureIn p) (a k : ℕ) (x : ℕ × Bool) (n : ℕ) : Prop :=
  if x.2 then Shown c₀ inp a x.1 n else Watch c₀ inp a k n

theorem Polled.found_of {a k k' st n : ℕ} {done : Bool} (h : Polled c₀ inp a k (st, done) n)
    (hdone : done = true) : Polled c₀ inp a k' (st, true) n := by
  rw [hdone] at h
  exact h

section
variable (w : OnWindow c₀ inp b) {a k n : ℕ}
include w

theorem Watch.step (h : Watch c₀ inp a k n) (hx : ∀ x, b.issued n = some x → ctrlWrite x = false) :
    Watch c₀ inp a k (n + 1) :=
  ⟨h.armed.step (w.wrCtrl_off hx), h.late.trans (Nat.le_succ n), h.busy⟩

variable (hone : (run c₀ inp a).csr.windowsQ = 1)
include hone

/-- One poll. -/
theorem poll (k : ℕ) : Triple b (Watch c₀ inp a k) (rd32 sStatus) fun st n =>
    Polled c₀ inp a (k + 1) (st, decide (st &&& 0x7 = stateDone)) n := by
  refine .read (M := fun d n => Polled c₀ inp a (k + 1) (d.toNat, decide (d.toNat &&& 0x7 = stateDone)) n)
    (fun t u v x h hacc hresp => ?_) fun d => .done fun t h => h
  obtain ⟨hnow, hnext⟩ := hacc.carry (fun n hn hx => hn.step w hx) h
  have hnext := hresp.carry (fun n hn hx => hn.step w hx) (hnext rfl)
  obtain ⟨rfl, rfl⟩ := w.status hacc.issued hresp
  rw [Polled]
  by_cases hdone : (run c₀ inp u).core.st = .done
  · rw [if_pos (decide_eq_true ((statusWord_state _ _).mpr hdone))]
    exact ⟨hnext.armed, u, hnow.armed.lt, by omega, hdone, rfl⟩
  · rw [if_neg (by rw [decide_eq_true_eq, statusWord_state]; exact hdone)]
    have hlate := hnow.late
    exact ⟨hnext.armed, by omega, fun v h₁ h₂ hv => hdone (hnow.armed.done hone h₁ (by omega) hv)⟩

/-- The bursts go on until the capture is done. -/
theorem pulse_polls (len : ℤ) (k i st : ℕ) : Triple b (Watch c₀ inp a k) (pulse len i st) fun x n =>
    Polled c₀ inp a (k + i) x n := by
  induction i generalizing k st with
  | zero => exact .done fun n h => h
  | succ i ih =>
    refine .bind (poll w hone k) fun st => ?_
    rw [show k + (i + 1) = k + 1 + i by omega]
    by_cases hd : st &&& 0x7 = stateDone
    · rw [if_pos hd]
      exact .done fun n h => h.found_of (decide_eq_true hd)
    · rw [if_neg hd]
      refine .weaken (.bind (.keeps (wrAll_only (burst_calm len)) fun n h hx => h.step w hx) fun _ => ih (k + 1) st)
        fun n h => ?_
      rwa [Polled, if_neg (by simpa using hd)] at h

/-- The polls go on until the capture is done. -/
theorem pollDone_polls (k i : ℕ) (x : ℕ × Bool) : Triple b (Polled c₀ inp a k x) (pollDone i x) fun x n =>
    Polled c₀ inp a (k + i) x n := by
  induction i generalizing k x with
  | zero => exact .done fun n h => h
  | succ i ih =>
    obtain ⟨st, done⟩ := x
    cases done with
    | true =>
      exact .done fun n h => h.found_of rfl
    | false =>
      refine .weaken (N := Watch c₀ inp a k) ?_ fun n h => h
      refine .bind (poll w hone k) fun st => ?_
      rw [show k + (i + 1) = k + 1 + i by omega]
      by_cases hd : st &&& 0x7 = stateDone
      · rw [if_pos hd]
        exact .done fun n h => h.found_of (decide_eq_true hd)
      · rw [if_neg hd]
        refine .weaken (ih (k + 1) (st, false)) fun n h => ?_
        rwa [decide_eq_false hd] at h

end

end FpgaScope
