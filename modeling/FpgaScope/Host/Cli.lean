import FpgaScope.Capture.Single
import FpgaScope.Host.Session

/-! The `config` and `arm` commands of the command line. They are separate runs of the
program: what `config` writes to `PRETRIG` stays in the register, and `arm` reorders by
its own `--pretrig`, which is 0 when it is not given. -/

namespace FpgaScope

open Clocked Protocol

variable {p : Params}

namespace Host

/-! ### The commands -/

/-- The calls of `_cmd_config`. -/
def cmdConfig (pretrig windows : Option ℤ) : List Call :=
  (pretrig.map (Call.writeCsr csrPretrig.toNat)).toList ++
    (windows.map (Call.writeCsr csrWindows.toNat)).toList ++ [.status]

inductive ArmOutcome
  | armed
  /-- "timeout waiting for DONE" -/
  | timeout
  | drained (cap : Except DecodeError Capture)

/-- `_cmd_arm` from its wait on: `polls` are the `STATUS` words `wait_done` reads before its
deadline, `bytes` what `drain` reads. -/
def cmdArm (wait : Bool) (pretrig : Option ℤ) (probeW : ℕ) (polls : List ℕ) (bytes : List Byte) : ArmOutcome :=
  if wait then
    if waitDone polls then .drained (decodeDrain (parseAll bytes) probeW (pretrig.getD 0)) else .timeout
  else .armed

/-- The bus write that a call asks for. -/
def Call.written : Call → Option CsrOp
  | .writeCsr word value =>
    if 0 ≤ value ∧ value < 2 ^ 32 then some (.wr (wordByte word) (BitVec.ofInt 32 value)) else none
  | .readCsr _ | .status => none

/-- `config --pretrig P --windows 1` writes both registers. -/
theorem config_writes (P : ℕ) (h : P < 2 ^ 32) : (cmdConfig (some P) (some 1)).filterMap Call.written =
    [.wr csrPretrig (BitVec.ofInt 32 P), .wr csrWindows 1] := by
  have hrange : (0 : ℤ) ≤ P ∧ (P : ℤ) < 2 ^ 32 := by omega
  have hbytes : wordByte csrPretrig.toNat = csrPretrig ∧ wordByte csrWindows.toNat = csrWindows := by decide
  have hpretrig : Call.written (.writeCsr csrPretrig.toNat P) = some (.wr csrPretrig (BitVec.ofInt 32 P)) := by
    rw [Call.written, if_pos hrange, hbytes.1]
  have hwindows : Call.written (.writeCsr csrWindows.toNat 1) = some (.wr csrWindows 1) := by
    rw [Call.written, if_pos (by norm_num), hbytes.2, show BitVec.ofInt 32 1 = 1 from BitVec.ofInt_natCast 32 1]
  have hstatus : Call.status.written = none := rfl
  have hcalls : cmdConfig (some P) (some 1) =
    [.writeCsr csrPretrig.toNat P, .writeCsr csrWindows.toNat 1, .status] := rfl
  rw [hcalls, List.filterMap_cons_some hpretrig, List.filterMap_cons_some hwindows, List.filterMap_cons_none hstatus,
    List.filterMap_nil]

end Host

namespace Capture

open Host

/-- The write stands when cycle `a` comes: it was accepted in `IDLE`, and none to its
register after it. -/
structure Stands (c₀ : Capture p) (inp : ℕ → CaptureIn p) (o : CsrOp) (t a : ℕ) : Prop where
  accepted : idleWrite c₀ inp o.addr t = some o.wdata
  before : t < a
  last : ∀ u, t < u → u < a → idleWrite c₀ inp o.addr u = none

/-- `config --pretrig P --windows 1` was accepted and `arm --wait` armed in cycle `a`; `wait_done`
read `STATUS` in the cycles `ms`, and the response to the `DRAIN` of cycle `n` is the dump. -/
structure Quickstart (c₀ : Capture p) (inp : ℕ → CaptureIn p) (P a : ℕ) (ms : List ℕ) (n : ℕ) : Prop where
  /-- Otherwise a count does not fit `count_word`. -/
  fits : p.rleEn = true → p.depthLog2 ≤ p.probeW
  lt : P < p.depth
  config : ∀ o ∈ (cmdConfig (some P) (some 1)).filterMap Call.written, ∃ t, Stands c₀ inp o t a
  arm : Core.LastArm c₀.core (coreInp c₀ inp) a n
  polls : ∀ m ∈ ms, a < m ∧ m ≤ n ∧ StatusRead inp m
  done : waitDone (ms.map (polled c₀ inp)) = true
  intact : (run c₀ inp n).drainSent = (run c₀ inp n).core.dump

variable {c₀ : Capture p} {inp : ℕ → CaptureIn p} {P a n : ℕ} {ms : List ℕ}

namespace Quickstart

variable (h : Quickstart c₀ inp P a ms n)
include h

/-- Both registers at the arm. -/
theorem registers : (run c₀ inp a).csr.pretrigQ.toNat = P ∧ (run c₀ inp a).csr.windowsQ = 1 := by
  have hlt := h.lt
  have hle := p.depthLog2_le
  have h32 : p.depth ≤ 2 ^ 32 := Nat.pow_le_pow_right (by norm_num) (by omega)
  have hwrites := config_writes P (by omega)
  obtain ⟨t, ht⟩ := h.config (.wr csrPretrig (BitVec.ofInt 32 P)) (by rw [hwrites]; simp)
  obtain ⟨t', ht'⟩ := h.config (.wr csrWindows 1) (by rw [hwrites]; simp)
  have hpretrig : idleWrite c₀ inp csrPretrig t = some (BitVec.ofInt 32 P) := ht.accepted
  have hwindows : idleWrite c₀ inp csrWindows t' = some 1 := ht'.accepted
  have hgiven := windowsGiven_one (depthLog2_bounds p).1
  constructor
  · have hlast : latest 0 (fun v => (idleWrite c₀ inp csrPretrig v).map fun x => x.setWidth p.depthLog2) a =
        (BitVec.ofInt 32 P).setWidth p.depthLog2 :=
      latest_held (by rw [hpretrig, Option.map_some]) ht.before
        fun u h₁ h₂ => by rw [show idleWrite c₀ inp csrPretrig u = none from ht.last u h₁ h₂, Option.map_none]
    rw [(configured_run c₀ inp a).pretrig, hlast, BitVec.toNat_setWidth, BitVec.ofInt_natCast,
      BitVec.toNat_ofNat, Nat.mod_eq_of_lt (hlt.trans_le h32)]
    exact Nat.mod_eq_of_lt hlt
  · rw [windows_latest]
    refine latest_held (by rw [hwindows, Option.bind_some]; exact hgiven) ht'.before fun u h₁ h₂ => ?_
    rw [show idleWrite c₀ inp csrWindows u = none from ht'.last u h₁ h₂, Option.bind_none]

/-- The window of the capture. -/
theorem window : ∃ d, OnlyWindow c₀ inp a n d := by
  obtain ⟨word, hword, hstate⟩ := (waitDone_iff _).mp h.done
  obtain ⟨m, hm, rfl⟩ := List.mem_map.mp hword
  obtain ⟨ham, hmn, hread⟩ := h.polls m hm
  rw [polled_status hread, decode_statusWord, code_done] at hstate
  obtain ⟨hpark, d, hd⟩ := onlyWindow_of_done (h.arm.restrict ham hmn) h.registers.2 hstate
  refine ⟨d, { hd with before := hd.before.trans_le hmn, frozen := hd.frozen.trans ?_ }⟩
  refine (rests_frozen (Or.inr hpark) n hmn fun v h₁ h₂ => ?_).2
  rw [core_run]
  exact h.arm.quiet v (by omega) h₂

theorem drained (pretrig : Option ℤ) :
    cmdArm true pretrig p.probeW (ms.map (polled c₀ inp)) (run c₀ inp n).drainSent = .drained (.ok
      (captureOf (run c₀ inp n).core (wholeBuffer (run c₀ inp n).core) (pretrig.getD 0))) := by
  rw [cmdArm, if_pos rfl, if_pos h.done, h.intact, decodeDrain_dump]

theorem wrapped : (run c₀ inp n).core.wrapped = true := by
  obtain ⟨d, hd⟩ := h.window
  rw [hd.frozen.wrapped, hd.wrapped]

/-- Had `arm` been given the count that `config` wrote, the list would be in order. -/
theorem given : ∃ d u v k, d < n ∧ TimeOrdered c₀ inp a d u v k
    (captureOf (run c₀ inp n).core (wholeBuffer (run c₀ inp n).core) P) := by
  obtain ⟨d, hd⟩ := h.window
  obtain ⟨u, v, k, hord⟩ := hd.timeOrdered h.arm h.fits
  rw [h.registers.1] at hord
  exact ⟨d, u, v, k, hd.before, hord⟩

end Quickstart

/-- What `arm --wait` exports after `config --pretrig P` is in acquisition order with exactly
`P` samples before the trigger if, and only if, `P` is 0: the count is in the register
alone. -/
theorem quickstart_ordered (c₀ : Capture p) (inp : ℕ → CaptureIn p) (P a : ℕ) (ms : List ℕ) (n : ℕ)
    (h : Quickstart c₀ inp P a ms n) :
    (∃ cap d u v k, cmdArm true none p.probeW (ms.map (polled c₀ inp)) (run c₀ inp n).drainSent =
      .drained (.ok cap) ∧ d < n ∧ TimeOrdered c₀ inp a d u v k cap ∧ cap.trigPos = P) ↔ P = 0 := by
  have hdrained := h.drained none
  have htrig := trigPos_zero h.wrapped
  constructor
  · rintro ⟨cap, -, -, -, -, hcap, -, -, hpos⟩
    rw [hdrained] at hcap
    obtain rfl := Except.ok.inj (ArmOutcome.drained.inj hcap)
    exact Int.natCast_eq_zero.mp (hpos.symm.trans htrig)
  · rintro rfl
    obtain ⟨d, u, v, k, hd, hord⟩ := h.given
    exact ⟨_, d, u, v, k, hdrained, hd, hord, htrig⟩

/-- Without the encoder the list `arm` makes is the one it would make of `--pretrig P`, turned
by `P`: it begins at the trigger, and the history is at its end. -/
theorem Quickstart.turned (h : Quickstart c₀ inp P a ms n) (hr : p.rleEn = false) :
    ∃ cap full d u v k,
      cmdArm true none p.probeW (ms.map (polled c₀ inp)) (run c₀ inp n).drainSent = .drained (.ok cap) ∧
      cmdArm true (some P) p.probeW (ms.map (polled c₀ inp)) (run c₀ inp n).drainSent = .drained (.ok full) ∧
      TimeOrdered c₀ inp a d u v k full ∧ cap.samples = full.samples.rotate P := by
  obtain ⟨d, u, v, k, -, hord⟩ := h.given
  refine ⟨_, _, d, u, v, k, h.drained none, h.drained (some P), hord, ?_⟩
  simp only [captureOf, timeOrder, hr, Bool.false_eq_true, ↓reduceIte, h.wrapped]
  exact reorderWindow_zero _ _ _

/-! ### A run of the quickstart -/

/-- 32 probe bits, 4096 words, no encoder. -/
def wide : Params :=
  { Params.small 32 false (by decide) with
    depthLog2 := 12
    le_depthLog2 := by decide
    depthLog2_le := by decide }

/-- `config --pretrig P --windows 1` in the cycles 0 and 1, armed in cycle 2; the external
trigger is always on, and `STATUS` is read all the time. -/
def quickIn (P : ℕ) (n : ℕ) : CaptureIn wide where
  probe := BitVec.ofNat 32 n
  trigExtI := true
  bus :=
    if n = 0 then .wr csrPretrig (BitVec.ofNat 32 P)
    else if n = 1 then .wr csrWindows 1
    else if n = 2 then .wr csrCtrl 1
    else .rd csrStatus

theorem quickIn_bus (P : ℕ) {n : ℕ} (hn : 2 < n) : (quickIn P n).bus = .rd csrStatus := by
  rw [quickIn, if_neg (by omega), if_neg (by omega), if_neg (by omega)]

theorem quickIn_smplCtrlZero (P : ℕ) : SmplCtrlZero (quickIn P) := by
  intro n hw ha
  unfold quickIn at hw ha
  split_ifs at hw ha with h0 h1 h2
  · exact absurd ha (show csrPretrig ≠ csrSmplCtrl by decide)
  · exact absurd ha (show csrWindows ≠ csrSmplCtrl by decide)
  · exact absurd ha (show csrCtrl ≠ csrSmplCtrl by decide)
  · cases hw

/-- Nothing leaves `IDLE` before the arm. -/
theorem quickIn_idle (P : ℕ) : ∀ n ≤ 2, stAt (blank wide) (quickIn P) n = .idle := by
  intro n hn
  induction n with
  | zero => rfl
  | succ n ih =>
    by_contra hne
    have harm := arm_of_idle (ih (by omega)) hne
    unfold quickIn at harm
    split_ifs at harm with h0 h1 h2
    · cases harm
    · cases harm
    · omega
    · cases harm

/-- The workflow on the run, for every count. -/
theorem quickIn_quickstart {P : ℕ} (hP : P < 4096) : ∃ n, Quickstart (blank wide) (quickIn P) P 2 [n] n := by
  have hidle := quickIn_idle P
  have harm : (run (blank wide) (quickIn P) 2).core.armAccept (coreInp (blank wide) (quickIn P) 2) = true := by
    rw [Core.armAccept, show (run (blank wide) (quickIn P) 2).core.st = .idle from hidle 2 le_rfl]
    change ((quickIn P 2).bus.arm && !(quickIn P 2).bus.disarm && _) = true
    rw [show (quickIn P 2).bus = .wr csrCtrl 1 from rfl]
    decide
  have hon : RunsOn (blank wide) (quickIn P) 2 := by
    refine runsOn_triggered rfl (quickIn_smplCtrlZero P) (fun n => ?_) fun n hn => ?_
    · simp [trigAt, trig, Trigger.trig, trigIn, quickIn]
    · rw [quickIn_bus P hn]
      rfl
  obtain ⟨n, hn, hpark⟩ := hon.parks harm
  have hpark := hpark n le_rfl
  have hread : StatusRead (quickIn P) n := by
    rw [StatusRead, quickIn_bus P hn]
    exact ⟨rfl, rfl⟩
  refine ⟨n, ⟨fun h => absurd h (by decide), hP, ?_, (hon.unhindered harm).lastArm hn, ?_, ?_, ?_⟩⟩
  · rw [config_writes P (hP.trans (by norm_num))]
    intro o ho
    simp only [List.mem_cons, List.not_mem_nil, or_false] at ho
    rcases ho with rfl | rfl
    · refine ⟨0, ?_, by decide, fun u h₁ h₂ => ?_⟩
      · rw [BitVec.ofInt_natCast]
        exact if_pos ⟨rfl, rfl, rfl⟩
      · obtain rfl : u = 1 := by omega
        exact if_neg fun h => absurd h.2.1 (show csrWindows ≠ csrPretrig by decide)
    · exact ⟨1, if_pos ⟨rfl, rfl, hidle 1 (by decide)⟩, by decide, fun u h₁ h₂ => by omega⟩
  · rintro m hm
    rw [List.mem_singleton.mp hm]
    exact ⟨hn, le_rfl, hread⟩
  · rw [List.map_singleton, waitDone_single, beq_iff_eq, polled_status hread, decode_statusWord, code_done]
    exact hpark.1
  · exact (run (blank wide) (quickIn P) n).drain_sent_iff.mpr (Or.inl (by decide))

/-- Without history the list is in order. -/
theorem quickIn_ordered : ∃ n cap d u v k,
    cmdArm true none wide.probeW ([n].map (polled (blank wide) (quickIn 0)))
      (run (blank wide) (quickIn 0) n).drainSent = .drained (.ok cap) ∧
    d < n ∧ TimeOrdered (blank wide) (quickIn 0) 2 d u v k cap ∧ cap.trigPos = (0 : ℕ) := by
  obtain ⟨n, hn⟩ := quickIn_quickstart (P := 0) (by decide)
  exact ⟨n, (quickstart_ordered (blank wide) (quickIn 0) 0 2 [n] n hn).mpr rfl⟩

/-- With a history of 256 samples none is before the trigger. -/
theorem quickIn_not_ordered : ¬ ∀ (p : Params) (c₀ : Capture p) (inp : ℕ → CaptureIn p) (P a : ℕ)
    (ms : List ℕ) (n : ℕ), Quickstart c₀ inp P a ms n → ∃ cap d u v k,
      cmdArm true none p.probeW (ms.map (polled c₀ inp)) (run c₀ inp n).drainSent = .drained (.ok cap) ∧
        d < n ∧ TimeOrdered c₀ inp a d u v k cap ∧ cap.trigPos = P := by
  intro h
  obtain ⟨n, hn⟩ := quickIn_quickstart (P := 256) (by decide)
  obtain ⟨cap, -, -, -, -, hcap, -, -, hpos⟩ := h wide (blank wide) (quickIn 256) 256 2 [n] n hn
  rw [hn.drained none] at hcap
  obtain rfl := Except.ok.inj (ArmOutcome.drained.inj hcap)
  exact absurd (hpos.symm.trans (trigPos_zero hn.wrapped)) (by decide)

end Capture

end FpgaScope
