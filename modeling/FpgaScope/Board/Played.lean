import FpgaScope.Board.Drain

/-! The script as a whole, played on a scope in any state. It comes to the dump of the capture it
has armed, unless the capture takes longer than its polls. A poll is one access, and the bus answers
it a cycle later: that is all the time a poll is known to take. -/

namespace FpgaScope

open Clocked Capture Console

variable {p : Params} {c₀ : Capture p} {inp : ℕ → CaptureIn p} {b : BusSignals (BitVec 32) (BitVec 32)}

/-! ### The configuration that the script writes -/

/-- The configuration at the arm, where the script found `c`. -/
def configured (c : Csr p) (pretrig : ℤ) : Csr p := (setup pretrig).foldl applied c

theorem setup_registers (pretrig : ℤ) : ∀ x ∈ setup pretrig, selScope x.1 = true ∧ configAddr (regWord x.1) = true ∧
    (regWord x.1 == csrCtrl) = false := by
  simp only [setup, List.forall_mem_cons]
  refine ⟨?_, ?_, ?_, ?_, ?_, ?_, ?_, ?_, ?_, fun x hx => by cases hx⟩ <;> decide

theorem setup_calm (pretrig : ℤ) : ∀ x ∈ setup pretrig, ctrlWrite (.write x.1 x.2) = false := by
  intro x hx
  obtain ⟨-, -, hctrl⟩ := setup_registers pretrig x hx
  rw [ctrlWrite, hctrl, Bool.and_false]

/-- Every write of the setup is accepted. -/
theorem configured_eq (c : Csr p) (pretrig : ℤ) :
    configured c pretrig = (setup pretrig).foldl (fun c x => c.writeCfg (writeBus x.1 x.2)) c := by
  refine List.foldl_ext _ _ _ fun c x hx => ?_
  obtain ⟨hsel, hcfg, -⟩ := setup_registers pretrig x hx
  rw [applied, Csr.cfgWrOk, isCfgAddr_eq, if_pos]
  change (selScope x.1 && configAddr (regWord x.1) && _) = true
  rw [hsel, hcfg]
  rfl

theorem burst_applied (c : Csr p) (len : ℤ) : (burst len).foldl applied c = c := by
  have hskip : ∀ (c : Csr p) a d, selScope a = false → applied c (a, d) = c := by
    intro c a d ha
    rw [applied, Csr.cfgWrOk, show (writeBus a d).write = selScope a from rfl, ha]
    rfl
  simp only [burst, List.foldl_cons, List.foldl_nil]
  rw [hskip _ bwLen _ (by decide), hskip _ bwBase _ (by decide), hskip _ bwCtrl _ (by decide)]

theorem regWords : regWord sPretrig = 4#8 ∧ regWord sWindows = 5#8 ∧ regWord sRleCtrl = 6#8 ∧
    regWord sCmpSel = 15#8 ∧ regWord sCmpLane0 = 16#8 ∧ regWord sCombine = 64#8 ∧ regWord sSeq0 = 65#8 := by decide

theorem configured_pretrig (c : Csr p) (pretrig : ℤ) :
    (configured c pretrig).pretrigQ = (BitVec.ofInt 32 pretrig).setWidth p.depthLog2 := by
  rw [configured_eq, setup]
  simp [Csr.writeCfg, writeBus, regWords, csrPretrig]

theorem configured_windows (c : Csr p) (pretrig : ℤ) : (configured c pretrig).windowsQ = 1 := by
  have hL : 1 ≤ p.depthLog2 := (depthLog2_bounds p).1
  have hgood : windowsGiven p.depthLog2 1 = some 1 := windowsGiven_one hL
  have hfine : (writeBus sWindows 1).windowsBad p.depthLog2 = false := by
    rw [(windowsBad_eq (writeBus sWindows 1) hL).1, show (writeBus sWindows 1).wdata = 1 from rfl, hgood]
    rfl
  rw [configured_eq, setup]
  have hbad : ∀ addr write, (CsrBus.mk addr 1#32 write false).windowsBad p.depthLog2 = false := fun _ _ => hfine
  simp [Csr.writeCfg, writeBus, regWords, csrWindows, hbad, CsrBus.windowsWval]

/-! ### The script -/

/-- What the script comes to when it has armed in cycle `a`. -/
inductive Comes (c₀ : Capture p) (inp : ℕ → CaptureIn p) (pretrig : ℤ) (a n : ℕ) : Outcome → Prop
  /-- The capture outlasts the polls. -/
  | never (st : ℕ) (armed : Armed c₀ inp a n) (late : a + 400000 ≤ n)
      (busy : ∀ v, a < v → v ≤ a + 400000 → stAt c₀ inp v ≠ .done) : Comes c₀ inp pretrig a n (.never st)
  | dumped (m : ℕ) (hold : Holding c₀ inp a m n) :
      Comes c₀ inp pretrig a n (.dumped (dumpText (headerOf (run c₀ inp m).core pretrig)
        (Host.wholeBuffer (run c₀ inp m).core)))

/-- Cycle `t` or later, with the configuration `c`. -/
structure Since (c₀ : Capture p) (inp : ℕ → CaptureIn p) (t : ℕ) (c : Csr p) (n : ℕ) : Prop where
  since : t ≤ n
  config : (run c₀ inp n).csr.config = c

section
variable (w : OnWindow c₀ inp b)
include w

theorem reset_bus {t u : ℕ} (hacc : Accesses b t u (.write sCtrl 0x8)) : disarmAt inp u = true ∧
    (run c₀ inp (u + 1)).csr.config = (run c₀ inp u).csr.config := by
  have hbus := w.write u sCtrl 0x8 hacc.issued
  have hnocfg : Csr.cfgWrOk (inp u).bus (run c₀ inp u).core.st = false := by
    rw [Csr.cfgWrOk, isCfgAddr_eq, hbus, show configAddr (regWord sCtrl) = false by decide, Bool.and_false,
      Bool.false_and]
  refine ⟨by rw [disarmAt, hbus]; rfl, ?_⟩
  rw [run_succ]
  change (Csr.step _ _ _).config = _
  rw [Csr.config_next, hnocfg, if_neg (by decide)]

theorem Since.step {t n : ℕ} {c : Csr p} (h : Since c₀ inp t c n)
    (hx : ∀ x, b.issued n = some x → ∃ a, x = .read a) : Since c₀ inp t c (n + 1) :=
  ⟨h.since.trans (Nat.le_succ n), (w.config_kept hx).trans h.config⟩

/-- A soft reset in any state. -/
theorem soft_resets (t : ℕ) (c : Csr p) : Triple b (Since c₀ inp t c) (wr32 sCtrl 0x8) fun _ n =>
    ∃ s, Ready c₀ inp s c n ∧ t ≤ s := by
  refine .write (fun t' u h hacc => ?_) (.done fun n h => h)
  obtain ⟨hnow, -⟩ := hacc.carry (fun n hn hx => hn.step w hx) h
  obtain ⟨hdisarm, hconfig⟩ := reset_bus w hacc
  have hready : Ready c₀ inp (u + 1) c (u + 1) := by
    refine ⟨le_rfl, fun v h₁ h₂ => ?_, hconfig.trans hnow.config⟩
    rw [show v = u + 1 by omega]
    exact idle_of_disarm hdisarm
  exact ⟨u + 1, hready, hnow.since.trans (Nat.le_succ u)⟩

/-- A soft reset in `IDLE`. -/
theorem Ready.soft_resets (s : ℕ) (c : Csr p) :
    Triple b (Ready c₀ inp s c) (wr32 sCtrl 0x8) fun _ => Ready c₀ inp s c := by
  refine .write (fun t u h hacc => ?_) (.done fun n h => h)
  obtain ⟨hnow, -⟩ := hacc.carry (fun n hn hx => hn.step w hx) h
  obtain ⟨hdisarm, hconfig⟩ := reset_bus w hacc
  exact hnow.stays (idle_of_disarm hdisarm) (hconfig.trans hnow.config)

/-- The arm. -/
theorem arms (s : ℕ) (c : Csr p) : Triple b (Ready c₀ inp s c) (wr32 sCtrl 0x1) fun _ n =>
    ∃ a, Arming c₀ inp s c a ∧ Watch c₀ inp a 0 n := by
  refine .write (fun t u h hacc => ?_) (.done fun n h => h)
  obtain ⟨hnow, -⟩ := hacc.carry (fun n hn hx => hn.step w hx) h
  have hbus := w.write u sCtrl 0x1 hacc.issued
  have haccept : (run c₀ inp u).core.armAccept (coreInp c₀ inp u) = true := by
    have harm : (coreInp c₀ inp u).arm = true := by
      change (inp u).bus.arm = true
      rw [hbus]
      rfl
    have hdisarm : (coreInp c₀ inp u).disarm = false := by
      change (inp u).bus.disarm = false
      rw [hbus]
      rfl
    rw [Core.armAccept, harm, hdisarm, show (run c₀ inp u).core.st = .idle from hnow.idle u hnow.since le_rfl]
    rfl
  have hfirst : Armed c₀ inp u (u + 1) := ⟨Nat.lt_succ_self u, haccept, fun v h₁ h₂ => by omega⟩
  exact ⟨u, ⟨hnow.since, hnow.idle, hnow.config⟩, hfirst, le_rfl, fun v h₁ h₂ => by omega⟩

/-- The script comes to an end, and to which one, from any state `I` that its first reads keep
and its soft reset makes ready. -/
theorem plays (hW : p.probeW = 32) (hr : p.rleEn = true) (pretrig len : ℤ) {c : Csr p} {I Z : ℕ → Prop}
    (hI : ∀ n, I n → (∀ x, b.issued n = some x → ∃ a, x = .read a) → I (n + 1))
    (hreset : Triple b I (wr32 sCtrl 0x8) fun _ n => ∃ s, Ready c₀ inp s c n ∧ Z s) :
    Triple b I (scopeCapture pretrig len) fun r n =>
      ∃ s a, Z s ∧ Arming c₀ inp s (configured c pretrig) a ∧ Comes c₀ inp pretrig a n r := by
  have hstore : p.storeW = 33 := by rw [Params.storeW, hr, if_pos rfl, hW]
  have hread : ∀ a n, I n → (∀ x, b.issued n = some x → x = .read a) → I (n + 1) :=
    fun a n hn hx => hI n hn fun x hx' => ⟨a, hx x hx'⟩
  refine .bind (w.rd32 (a := sId) (by decide) (hread sId)) fun id => .of_and ?_
  rintro ⟨m, d, -, hid⟩
  have hid : id = 0x5C09E001 := hid
  rw [if_neg (not_not.mpr hid)]
  refine .bind (w.rd32 (a := sHwcfg) (by decide) (hread sHwcfg)) fun hwcfg => .of_and ?_
  rintro ⟨m, d, -, hhwcfg⟩
  have hhwcfg : hwcfg = (Csr.hwcfgWord p).toNat := hhwcfg
  refine .bind hreset fun _ => .of_exists fun s => ?_
  refine .weaken (.of_and fun hs => ?_) fun n h => ⟨h.2, h.1⟩
  refine .bind (Ready.wrAll w (setup pretrig) (setup_calm pretrig) s c) fun _ => ?_
  refine .bind (Ready.read w s (configured c pretrig) sStatus) fun _ => ?_
  have hburst := Ready.wrAll w (burst len) (burst_calm len) s (configured c pretrig)
  rw [burst_applied] at hburst
  refine .bind hburst fun _ => .bind (arms w s (configured c pretrig)) fun _ => .of_exists fun a => .of_and fun harm => ?_
  have hone : (run c₀ inp a).csr.windowsQ = 1 := by
    rw [← configured_windows c pretrig, ← harm.config]
    rfl
  refine .bind (.keeps (waitArmed_only (Q := fun x => ctrlWrite x = false) rfl 100000) fun n h hx => h.step w hx)
    fun _ => ?_
  refine .bind (pulse_polls w hone len 0 64 0) fun x => .bind (pollDone_polls w hone (0 + 64) 200000 x) fun x => ?_
  obtain ⟨st, done⟩ := x
  cases done with
  | false =>
    refine .done fun n h => ⟨s, a, hs, harm, .never st h.armed ?_ fun v h₁ h₂ => h.busy v h₁ (by omega)⟩
    have hlate := h.late
    omega
  | true =>
    intro t t' r h hplay
    obtain ⟨m, h₁, h₂, hdone, rfl⟩ := h.found
    have hhold : Holding c₀ inp a m t := ⟨h.armed, hone, h₁, h₂, hdone⟩
    change Plays b t (dump pretrig hwcfg (1 <<< ((hwcfg >>> 10) &&& 0xf)) _) t' r at hplay
    rw [hhwcfg, (hwcfg_fields hr).2] at hplay
    obtain ⟨rfl, hend⟩ := dumps w hstore hr pretrig t t' r hhold hplay
    exact ⟨s, a, hs, harm, .dumped m hend⟩

end

end FpgaScope
