import FpgaScope.Capture.Run

/-! The configuration registers against the bus. Each output holds the last write to it
that arrived in `IDLE`; the addresses and the meaning of the written word are those of
the register map. -/

namespace FpgaScope

/-! ### The register map -/

/-- `PRETRIG`, `WINDOWS`, `RLE_CTRL`; `SMPL_CTRL`, `CMP_SEL`, `CMP_LANE[0..15]`;
`TRIG_COMBINE`, `SEQ_CNT0..3`. -/
def configAddr (a : BitVec 8) : Bool :=
  decide (4 ≤ a ∧ a ≤ 6 ∨ 14 ≤ a ∧ a ≤ 31 ∨ 64 ≤ a ∧ a ≤ 68)

theorem isCfgAddr_eq (b : CsrBus) : b.isCfgAddr = configAddr b.addr := by
  have h : ∀ a : BitVec 8, (a == csrPretrig || a == csrWindows || a == csrRleCtrl ||
      a == csrCmpSel || a == csrSmplCtrl ||
      (decide (csrCmpLaneBase ≤ a) && decide (a < csrCmpLaneBase + csrCmpLaneWords)) ||
      a == csrTrigCombine || (decide (csrSeqCntBase ≤ a) &&
        decide (a < csrSeqCntBase + BitVec.ofNat 8 seqStages))) = configAddr a := by decide
  exact h b.addr

/-- The lane window: word `16 + j` is lane `j`. -/
theorem isLaneAddr_iff (b : CsrBus) (j : ℕ) (hj : j < 16) :
    (b.isLaneAddr = true ∧ b.laneIdx = j) ↔ b.addr = csrCmpLaneBase + BitVec.ofNat 8 j := by
  have h : ∀ a : BitVec 8, ∀ j : Fin 16,
      (((decide (csrCmpLaneBase ≤ a) && decide (a < csrCmpLaneBase + csrCmpLaneWords)) = true ∧
        (a.setWidth 4).toNat = j.val) ↔ a = csrCmpLaneBase + BitVec.ofNat 8 j.val) := by decide
  exact h b.addr ⟨j, hj⟩

theorem isSeqAddr_iff (b : CsrBus) (s : Fin seqStages) :
    (b.isSeqAddr && s == b.seqIdx) = (b.addr == csrSeqCntBase + BitVec.ofNat 8 s.val) := by
  have h : ∀ a : BitVec 8, ∀ s : Fin seqStages,
      ((decide (csrSeqCntBase ≤ a) && decide (a < csrSeqCntBase + BitVec.ofNat 8 seqStages)) &&
        s == ((a - csrSeqCntBase).setWidth 2).toFin) =
      (a == csrSeqCntBase + BitVec.ofNat 8 s.val) := by decide
  exact h b.addr s

/-- `CMP_SEL` holds the field above the comparator. -/
theorem cmpSel_iff (sel : BitVec 4) (f k : Fin 4) :
    (f == (sel.extractLsb' 2 2).toFin && k == (sel.setWidth 2).toFin) =
      decide (sel.toNat = 4 * f.val + k.val) := by
  revert sel f k
  decide

/-- The window count a written word stands for: the low byte with 0 counted as 1, none
if that is more than half the depth. -/
def windowsGiven (depthLog2 : ℕ) (v : BitVec 32) : Option (BitVec 8) :=
  let w := if v.setWidth 8 = 0 then 1 else v.setWidth 8
  if w.toNat ≤ 2 ^ depthLog2 / 2 then some w else none

theorem windowsBad_eq (b : CsrBus) {L : ℕ} (hL : 1 ≤ L) :
    b.windowsBad L = (windowsGiven L b.wdata).isNone ∧
      (b.windowsBad L = false → windowsGiven L b.wdata = some b.windowsWval) := by
  have hhalf : 2 ^ L / 2 = 2 ^ (L - 1) := by
    obtain ⟨m, rfl⟩ := Nat.exists_eq_add_of_le' hL
    rw [pow_succ, Nat.mul_div_cancel _ (by decide), Nat.add_sub_cancel]
  have hval : (if b.wdata.setWidth 8 = 0 then 1 else b.wdata.setWidth 8 : BitVec 8) =
      b.windowsWval := by simp only [CsrBus.windowsWval, beq_iff_eq]
  unfold windowsGiven CsrBus.windowsBad
  rw [hval, hhalf, Nat.one_shiftLeft]
  by_cases h : b.windowsWval.toNat ≤ 2 ^ (L - 1)
  · simp [h]
  · simp [h, Nat.lt_of_not_le h]

/-! ### Lanes -/

/-- A lane write replaces the 32 bits of its lane. -/
theorem getLsbD_setLane {w : ℕ} (x : BitVec w) (j : ℕ) (v : BitVec 32) (i : ℕ) (hi : i < w) :
    (setLane x j v).getLsbD i = if i / 32 = j then v.getLsbD (i % 32) else x.getLsbD i := by
  simp only [setLane, BitVec.getLsbD_or, BitVec.getLsbD_and, BitVec.getLsbD_not,
    BitVec.getLsbD_shiftLeft, BitVec.getLsbD_setWidth, BitVec.getLsbD_allOnes, hi, decide_true,
    Bool.true_and]
  rcases Nat.lt_trichotomy (i / 32) j with h | rfl | h
  · rw [if_neg (by omega)]
    simp [show i < 32 * j by omega]
  · rw [if_pos rfl]
    have hmod : i - 32 * (i / 32) = i % 32 := by omega
    simp [hmod, show ¬ i < 32 * (i / 32) by omega, show i % 32 < w by omega,
      Nat.mod_lt i (show 32 > 0 by decide)]
  · have hout : v.getLsbD (i - 32 * j) = false := BitVec.getLsbD_of_ge _ _ (by omega)
    rw [if_neg (by omega)]
    simp [show ¬ i < 32 * j by omega, show ¬ i - 32 * j < 32 by omega, hout]

/-- Inside the probe width the lane mask lets every bit through. -/
theorem laneWmask_getLsbD (p : Params) {i : ℕ} (hi : i < p.probeW) :
    (Csr.laneWmask p (i / 32)).getLsbD (i % 32) = true := by
  have hmod := Nat.mod_lt i (show 0 < 32 by decide)
  unfold Csr.laneWmask
  dsimp only
  split
  · rw [BitVec.getLsbD_allOnes, decide_eq_true hmod]
  · rename_i hrem
    rw [if_neg (by omega)]
    obtain ⟨r, hr⟩ : ∃ r : ℕ, ((p.probeW : ℤ) - 32 * ((i / 32 : ℕ) : ℤ)).toNat = r := ⟨_, rfl⟩
    rw [hr]
    have hlt : i % 32 < r ∧ r < 32 := by omega
    have hall : ∀ r < 32, ∀ k < r, (((1 : BitVec 32) <<< r) - 1).getLsbD k = true := by decide
    exact hall r hlt.2 _ hlt.1

/-! ### The last write in `IDLE` -/

namespace Capture

open Clocked

variable {p : Params}

section
variable (c₀ : Capture p) (inp : ℕ → CaptureIn p)

/-- The word written to address `a` in cycle `n`, if it arrives in `IDLE`. -/
def idleWrite (a : BitVec 8) (n : ℕ) : Option (BitVec 32) :=
  if (inp n).bus.write = true ∧ (inp n).bus.addr = a ∧ stAt c₀ inp n = .idle
  then some (inp n).bus.wdata else none

/-- The comparator and field selected by `CMP_SEL` in cycle `n`. -/
def selected (n : ℕ) : BitVec 4 :=
  latest 0 (fun v => (idleWrite c₀ inp csrCmpSel v).map fun x => x.setWidth 4) n

/-- The word written to lane `j` of field `f` of comparator `k` in cycle `n`. -/
def laneWrite (f : Fin 4) (k : Fin numCmp) (j n : ℕ) : Option (BitVec 32) :=
  if (selected c₀ inp n).toNat = 4 * f.val + k.val
  then idleWrite c₀ inp (csrCmpLaneBase + BitVec.ofNat 8 j) n else none

/-- A comparator field holds, bit for bit, the last write to the lane of the bit. -/
def FieldWritten (f : Fin 4) (k : Fin numCmp) (n : ℕ) (x : BitVec p.probeW) : Prop :=
  ∀ i < p.probeW,
    x.getLsbD i = (latest 0 (laneWrite c₀ inp f k (i / 32)) n).getLsbD (i % 32)

/-- Every configuration output in cycle `n` is the last write to it in `IDLE`. -/
structure Configured (n : ℕ) : Prop where
  pretrig : (run c₀ inp n).csr.pretrigQ =
    latest 0 (fun v => (idleWrite c₀ inp csrPretrig v).map fun x => x.setWidth p.depthLog2) n
  windows : (run c₀ inp n).csr.windowsQ =
    latest 1 (fun v => (idleWrite c₀ inp csrWindows v).bind (windowsGiven p.depthLog2)) n
  rleEnable : (run c₀ inp n).csr.rleEnableQ =
    latest false (fun v => (idleWrite c₀ inp csrRleCtrl v).map fun x => x.getLsbD 0) n
  decim : (run c₀ inp n).csr.decim =
    (latest 0 (idleWrite c₀ inp csrSmplCtrl) n).extractLsb' 0 24
  qualEn : (run c₀ inp n).csr.qualEn = (latest 0 (idleWrite c₀ inp csrSmplCtrl) n).getLsbD 24
  qualSel : (run c₀ inp n).csr.qualSel.val =
    ((latest 0 (idleWrite c₀ inp csrSmplCtrl) n).extractLsb' 25 2).toNat
  cmpMask : ∀ k, FieldWritten c₀ inp cmpFieldMask k n ((run c₀ inp n).csr.trigCfg.cmpMask k)
  cmpValue : ∀ k, FieldWritten c₀ inp cmpFieldValue k n ((run c₀ inp n).csr.trigCfg.cmpValue k)
  cmpEdgeMask : ∀ k,
    FieldWritten c₀ inp cmpFieldEdgeMask k n ((run c₀ inp n).csr.trigCfg.cmpEdgeMask k)
  cmpEdgePol : ∀ k,
    FieldWritten c₀ inp cmpFieldEdgePol k n ((run c₀ inp n).csr.trigCfg.cmpEdgePol k)
  trigCombine : (run c₀ inp n).csr.trigCfg.trigCombine =
    latest 0 (idleWrite c₀ inp csrTrigCombine) n
  seqCnt : ∀ s : Fin seqStages, (run c₀ inp n).csr.trigCfg.seqCnt s =
    latest 1 (idleWrite c₀ inp (csrSeqCntBase + BitVec.ofNat 8 s.val)) n

end

variable {c₀ : Capture p} {inp : ℕ → CaptureIn p}

/-- The register file accepts a configuration write in cycle `n`. -/
def writesAt (c₀ : Capture p) (inp : ℕ → CaptureIn p) (n : ℕ) : Bool :=
  Csr.cfgWrOk (inp n).bus (stAt c₀ inp n)

/-- On a configuration address the accepted writes are those that arrive in `IDLE`. -/
theorem idleWrite_eq {a : BitVec 8} (ha : configAddr a = true) (n : ℕ) :
    idleWrite c₀ inp a n =
      if writesAt c₀ inp n && (inp n).bus.addr == a then some (inp n).bus.wdata else none := by
  unfold idleWrite writesAt Csr.cfgWrOk Csr.cfgLocked
  rw [isCfgAddr_eq]
  by_cases haddr : (inp n).bus.addr = a
  · simp [haddr, ha]
  · simp [haddr]

/-- A register that only a configuration write changes. -/
theorem register_latest {α : Type*} (reg : Csr p → α) (sig : ℕ → Option α)
    (hstep : ∀ (c : Csr p) b (core : Core p.storeW p.depthLog2 p.tsW),
      reg (c.step b core) = reg (if Csr.cfgWrOk b core.st then c.writeCfg b else c))
    (hwrite : ∀ n, writesAt c₀ inp n = true →
      reg ((run c₀ inp n).csr.writeCfg (inp n).bus) = (sig n).getD (reg (run c₀ inp n).csr))
    (hkeep : ∀ n, writesAt c₀ inp n = false → sig n = none) (n : ℕ) :
    reg (run c₀ inp n).csr = latest (reg (.reset p)) sig n := by
  refine @eq_latest _ (fun n => reg (run c₀ inp n).csr) _ (fun n => ?_) n
  refine (hstep _ _ (run c₀ inp n).core).trans ?_
  have hok : Csr.cfgWrOk (inp n).bus (run c₀ inp n).core.st = writesAt c₀ inp n := rfl
  rw [hok]
  cases h : writesAt c₀ inp n with
  | true => exact hwrite n h
  | false =>
    rw [hkeep n h]
    rfl

/-- A register written as a whole from one address. -/
theorem word_latest {α : Type*} (reg : Csr p → α) {a : BitVec 8} (ha : configAddr a = true)
    (f : BitVec 32 → α)
    (hstep : ∀ (c : Csr p) b (core : Core p.storeW p.depthLog2 p.tsW),
      reg (c.step b core) = reg (if Csr.cfgWrOk b core.st then c.writeCfg b else c))
    (hwrite : ∀ (c : Csr p) b, reg (c.writeCfg b) = if b.addr == a then f b.wdata else reg c)
    (n : ℕ) : reg (run c₀ inp n).csr =
      latest (reg (.reset p)) (fun v => (idleWrite c₀ inp a v).map f) n := by
  refine register_latest reg _ hstep (fun n h => ?_) (fun n h => ?_) n
  · rw [hwrite, idleWrite_eq ha, h, Bool.true_and]
    cases (inp n).bus.addr == a <;> rfl
  · rw [idleWrite_eq ha, h, Bool.false_and]
    rfl

theorem raw_latest (c₀ : Capture p) (inp : ℕ → CaptureIn p) (reg : Csr p → BitVec 32)
    {a : BitVec 8} (ha : configAddr a = true)
    (hstep : ∀ (c : Csr p) b (core : Core p.storeW p.depthLog2 p.tsW),
      reg (c.step b core) = reg (if Csr.cfgWrOk b core.st then c.writeCfg b else c))
    (hwrite : ∀ (c : Csr p) b, reg (c.writeCfg b) = if b.addr == a then b.wdata else reg c)
    (n : ℕ) : reg (run c₀ inp n).csr = latest (reg (.reset p)) (idleWrite c₀ inp a) n := by
  have h := @word_latest _ c₀ inp _ reg _ ha id hstep hwrite n
  simpa only [Option.map_id, id_eq] using h

theorem windows_latest (c₀ : Capture p) (inp : ℕ → CaptureIn p) (n : ℕ) :
    (run c₀ inp n).csr.windowsQ =
      latest 1 (fun v => (idleWrite c₀ inp csrWindows v).bind (windowsGiven p.depthLog2)) n := by
  refine register_latest Csr.windowsQ _ (fun _ _ _ => rfl) (fun n h => ?_) (fun n h => ?_) n
  · rw [idleWrite_eq (by decide), h, Bool.true_and]
    have hbad := windowsBad_eq (inp n).bus (depthLog2_bounds p).1
    simp only [Csr.writeCfg]
    cases (inp n).bus.addr == csrWindows with
    | false => rfl
    | true =>
      simp only [Bool.true_and, ↓reduceIte, Option.bind_some]
      cases hb : (inp n).bus.windowsBad p.depthLog2 with
      | false => rw [hbad.2 hb]; rfl
      | true =>
        rw [hb, eq_comm, Option.isNone_iff_eq_none] at hbad
        rw [hbad.1]
        rfl
  · rw [idleWrite_eq (by decide), h, Bool.false_and]
    rfl

theorem cmpSelQ_eq (c₀ : Capture p) (inp : ℕ → CaptureIn p) (n : ℕ) :
    (run c₀ inp n).csr.cmpSelQ = selected c₀ inp n :=
  word_latest Csr.cmpSelQ (by decide) _ (fun _ _ _ => rfl) (fun _ _ => rfl) n

theorem smplCtrlQ_eq (c₀ : Capture p) (inp : ℕ → CaptureIn p) (n : ℕ) :
    (run c₀ inp n).csr.smplCtrlQ = latest 0 (idleWrite c₀ inp csrSmplCtrl) n :=
  raw_latest c₀ inp Csr.smplCtrlQ (by decide) (fun _ _ _ => rfl) (fun _ _ => rfl) n

/-- A lane write, seen from one bit of one comparator field. -/
theorem writeCfg_cmpQ (c : Csr p) (b : CsrBus) (f : Fin 4) (k : Fin numCmp) {i : ℕ}
    (hi : i < p.probeW) : ((c.writeCfg b).cmpQ f k).getLsbD i =
      if b.addr = csrCmpLaneBase + BitVec.ofNat 8 (i / 32) ∧
        c.cmpSelQ.toNat = 4 * f.val + k.val
      then b.wdata.getLsbD (i % 32) else (c.cmpQ f k).getLsbD i := by
  have hpad : i < p.padW := by
    unfold Params.padW Params.lanes
    omega
  have hlane : i / 32 < 16 := by have := p.probeW_le; omega
  have haddr := isLaneAddr_iff b (i / 32) hlane
  simp only [Csr.writeCfg, Bool.and_assoc, cmpSel_iff]
  by_cases hsel : c.cmpSelQ.toNat = 4 * f.val + k.val
  · simp only [hsel, decide_true, Bool.and_true, and_true]
    by_cases hl : b.isLaneAddr = true ∧ 32 * b.laneIdx < p.probeW
    · rw [hl.1, decide_eq_true hl.2, Bool.and_self, if_pos rfl, getLsbD_setLane _ _ _ _ hpad]
      by_cases hidx : b.laneIdx = i / 32
      · rw [if_pos hidx.symm, if_pos (haddr.mp ⟨hl.1, hidx⟩), BitVec.getLsbD_and, hidx,
          laneWmask_getLsbD p hi, Bool.and_true]
      · rw [if_neg (Ne.symm hidx), if_neg fun h => hidx (haddr.mpr h).2]
    · rw [if_neg (by simpa using hl), if_neg]
      intro h
      obtain ⟨h₁, h₂⟩ := haddr.mpr h
      exact hl ⟨h₁, by omega⟩
  · simp [hsel]

/-- A comparator field is written lane by lane under `CMP_SEL`. -/
theorem cmpQ_written (f : Fin 4) (k : Fin numCmp) (n : ℕ) :
    FieldWritten c₀ inp f k n (((run c₀ inp n).csr.cmpQ f k).setWidth p.probeW) := by
  intro i hi
  have haddr : configAddr (csrCmpLaneBase + BitVec.ofNat 8 (i / 32)) = true := by
    have hlane : i / 32 < 16 := by have := p.probeW_le; omega
    have hall : ∀ j : Fin 16, configAddr (csrCmpLaneBase + BitVec.ofNat 8 j.val) = true := by decide
    exact hall ⟨i / 32, hlane⟩
  rw [BitVec.getLsbD_setWidth, decide_eq_true hi, Bool.true_and,
    ← latest_map fun x : BitVec 32 => x.getLsbD (i % 32)]
  refine (@register_latest _ c₀ inp _ (fun c => (c.cmpQ f k).getLsbD i)
    (fun n => (laneWrite c₀ inp f k (i / 32) n).map fun x => x.getLsbD (i % 32))
    (fun _ _ _ => rfl) (fun n h => ?_) (fun n h => ?_) n).trans ?_
  · rw [writeCfg_cmpQ _ _ _ _ hi, cmpSelQ_eq, laneWrite, idleWrite_eq haddr, h, Bool.true_and]
    by_cases hsel : (selected c₀ inp n).toNat = 4 * f.val + k.val
    · by_cases ha : (inp n).bus.addr = csrCmpLaneBase + BitVec.ofNat 8 (i / 32)
      · simp [hsel, ha]
      · simp [hsel, ha]
    · simp [hsel]
  · rw [laneWrite, idleWrite_eq haddr, h, Bool.false_and]
    simp
  · simp [Csr.reset]

theorem configured_run (c₀ : Capture p) (inp : ℕ → CaptureIn p) (n : ℕ) :
    Configured c₀ inp n where
  pretrig := word_latest Csr.pretrigQ (by decide) _ (fun _ _ _ => rfl) (fun _ _ => rfl) n
  windows := windows_latest c₀ inp n
  rleEnable := word_latest Csr.rleEnableQ (by decide) _ (fun _ _ _ => rfl) (fun _ _ => rfl) n
  decim := by
    rw [Csr.decim, smplCtrlQ_eq, BitVec.setWidth_eq_extractLsb' (by decide)]
  qualEn := by rw [Csr.qualEn, smplCtrlQ_eq]
  qualSel := by
    rw [Csr.qualSel, smplCtrlQ_eq]
    rfl
  cmpMask k := cmpQ_written cmpFieldMask k n
  cmpValue k := cmpQ_written cmpFieldValue k n
  cmpEdgeMask k := cmpQ_written cmpFieldEdgeMask k n
  cmpEdgePol k := cmpQ_written cmpFieldEdgePol k n
  trigCombine :=
    raw_latest c₀ inp Csr.trigCombineQ (by decide) (fun _ _ _ => rfl) (fun _ _ => rfl) n
  seqCnt s := by
    have haddr : ∀ s : Fin seqStages,
        configAddr (csrSeqCntBase + BitVec.ofNat 8 s.val) = true := by decide
    exact raw_latest c₀ inp (fun c => c.seqCntQ s) (haddr s) (fun _ _ _ => rfl)
      (fun c b => by rw [← isSeqAddr_iff]; rfl) n

/-! ### The lock and `cfg_err` -/

/-- What the register file drives out as configuration. -/
structure ConfigOut (p : Params) where
  pretrig : BitVec p.depthLog2
  windows : BitVec 8
  rleEnable : Bool
  decim : BitVec 24
  qualEn : Bool
  qualSel : Fin numCmp
  trigCfg : TrigCfg p.probeW

def configOut (c₀ : Capture p) (inp : ℕ → CaptureIn p) (n : ℕ) : ConfigOut p where
  pretrig := (run c₀ inp n).csr.pretrigQ
  windows := (run c₀ inp n).csr.windowsQ
  rleEnable := (run c₀ inp n).csr.rleEnableQ
  decim := (run c₀ inp n).csr.decim
  qualEn := (run c₀ inp n).csr.qualEn
  qualSel := (run c₀ inp n).csr.qualSel
  trigCfg := (run c₀ inp n).csr.trigCfg

/-- A write that `cfg_err` reports: to the configuration outside `IDLE`, or of a window
count that is out of range. -/
def BadWrite (c₀ : Capture p) (inp : ℕ → CaptureIn p) (n : ℕ) : Prop :=
  (inp n).bus.write = true ∧
    (configAddr (inp n).bus.addr = true ∧ stAt c₀ inp n ≠ .idle ∨
      (inp n).bus.addr = csrWindows ∧ windowsGiven p.depthLog2 (inp n).bus.wdata = none)

theorem configOut_kept {n : ℕ} (h : writesAt c₀ inp n = false) :
    configOut c₀ inp (n + 1) = configOut c₀ inp n := by
  have hok : Csr.cfgWrOk (inp n).bus (run c₀ inp n).core.st = false := h
  unfold configOut
  rw [run_succ]
  simp only [step, Csr.step, hok, Bool.false_eq_true, ↓reduceIte]
  rfl

theorem writesAt_of_idleWrite {n : ℕ}
    (h : ∀ a, configAddr a = true → idleWrite c₀ inp a n = none) : writesAt c₀ inp n = false := by
  cases hw : writesAt c₀ inp n with
  | false => rfl
  | true =>
    have haddr : configAddr (inp n).bus.addr = true := by
      simp only [writesAt, Csr.cfgWrOk, isCfgAddr_eq, Bool.and_eq_true] at hw
      exact hw.1.2
    have hno := h _ haddr
    rw [idleWrite_eq haddr, hw, beq_self_eq_true] at hno
    cases hno

theorem writesAt_locked {n : ℕ} (h : stAt c₀ inp n ≠ .idle) : writesAt c₀ inp n = false := by
  rw [writesAt, Csr.cfgWrOk, Csr.cfgLocked, bne_iff_ne.mpr h, Bool.not_true, Bool.and_false]

/-- The configuration stands still while the FSM is out of `IDLE`. -/
theorem configOut_locked {m n : ℕ} (hle : m ≤ n)
    (hbusy : ∀ v, m ≤ v → v < n → stAt c₀ inp v ≠ .idle) :
    configOut c₀ inp n = configOut c₀ inp m := by
  induction n, hle using Nat.le_induction with
  | base => rfl
  | succ n hn ih =>
    rw [configOut_kept (writesAt_locked (hbusy n hn (Nat.lt_succ_self n)))]
    exact ih fun v h₁ h₂ => hbusy v h₁ (by omega)

/-- One cycle of `cfg_err`. -/
theorem cfgErr_succ (n : ℕ) : (run c₀ inp (n + 1)).csr.cfgErr = true ↔
    (inp n).bus.softRst = false ∧ (BadWrite c₀ inp n ∨ (run c₀ inp n).csr.cfgErr = true) := by
  change (run c₀ inp n).csr.cfgErrNext (inp n).bus (stAt c₀ inp n) = true ↔ _
  have hbad := (windowsBad_eq (inp n).bus (depthLog2_bounds p).1).1
  rw [Csr.cfgErrNext, BadWrite, isCfgAddr_eq, hbad, Csr.cfgLocked]
  cases (inp n).bus.softRst with
  | true => simp
  | false =>
    cases (inp n).bus.write with
    | false => simp
    | true =>
      by_cases hst : stAt c₀ inp n = .idle
      · by_cases ha : (inp n).bus.addr = csrWindows
        · by_cases hw : windowsGiven p.depthLog2 (inp n).bus.wdata = none <;> simp [hst, ha, hw]
        · simp [hst, ha]
      · by_cases ha : (inp n).bus.addr = csrWindows
        · simp [hst, ha, show configAddr csrWindows = true by decide]
        · by_cases hc : configAddr (inp n).bus.addr = true <;> simp [hst, ha, hc]

theorem cfgErr_iff (c₀ : Capture p) (inp : ℕ → CaptureIn p) (n : ℕ) :
    (run c₀ inp n).csr.cfgErr = true ↔
      ∃ w < n, BadWrite c₀ inp w ∧ ∀ v, w ≤ v → v < n → (inp v).bus.softRst = false := by
  induction n with
  | zero => exact ⟨(fun h => nomatch h), fun ⟨w, hw, _⟩ => absurd hw (Nat.not_lt_zero w)⟩
  | succ n ih =>
    rw [cfgErr_succ, ih]
    constructor
    · rintro ⟨hsoft, hbad | ⟨w, hw, hbad, hall⟩⟩
      · exact ⟨n, Nat.lt_succ_self n, hbad, fun v h₁ h₂ => by rwa [show v = n by omega]⟩
      · refine ⟨w, Nat.lt_succ_of_lt hw, hbad, fun v h₁ h₂ => ?_⟩
        rcases Nat.lt_or_ge v n with hv | hv
        · exact hall v h₁ hv
        · rwa [show v = n by omega]
    · rintro ⟨w, hw, hbad, hall⟩
      refine ⟨hall n (by omega) (Nat.lt_succ_self n), ?_⟩
      rcases Nat.lt_succ_iff_lt_or_eq.mp hw with hlt | rfl
      · exact Or.inr ⟨w, hlt, hbad, fun v h₁ h₂ => hall v h₁ (by omega)⟩
      · exact Or.inl hbad

/-- The configuration lockout: every output is the last write to it in `IDLE`, no other
bus cycle moves it, it stands still while the FSM is out of `IDLE`, and `cfg_err` is set
exactly if a bad write came after the last soft reset. -/
theorem config_last_write (c₀ : Capture p) (inp : ℕ → CaptureIn p) (n : ℕ) :
    Configured c₀ inp n ∧
    ((∀ a, configAddr a = true → idleWrite c₀ inp a n = none) →
      configOut c₀ inp (n + 1) = configOut c₀ inp n) ∧
    (∀ m ≤ n, (∀ v, m ≤ v → v < n → stAt c₀ inp v ≠ .idle) →
      configOut c₀ inp n = configOut c₀ inp m) ∧
    ((run c₀ inp n).csr.cfgErr = true ↔
      ∃ w < n, BadWrite c₀ inp w ∧ ∀ v, w ≤ v → v < n → (inp v).bus.softRst = false) := by
  exact ⟨configured_run c₀ inp n, fun h => configOut_kept (writesAt_of_idleWrite h),
    fun m hle hbusy => configOut_locked hle hbusy, cfgErr_iff c₀ inp n⟩

/-! ### The window count of a capture -/

/-- A written word stands for its low byte, or for 1. -/
theorem windowsGiven_spec (L : ℕ) (v : BitVec 32) :
    ∃ w : BitVec 8, w.toNat = max (v.toNat % 256) 1 ∧
      windowsGiven L v = if w.toNat ≤ 2 ^ L / 2 then some w else none := by
  refine ⟨if v.setWidth 8 = 0 then 1 else v.setWidth 8, ?_, rfl⟩
  have hbyte : (v.setWidth 8).toNat = v.toNat % 256 := BitVec.toNat_setWidth 8 v
  rw [← hbyte]
  split
  · rename_i h0
    rw [h0]
    rfl
  · rename_i hne
    have hpos : (v.setWidth 8).toNat ≠ 0 := fun h0 => hne (BitVec.eq_of_toNat_eq h0)
    omega

theorem windowsGiven_some {L : ℕ} {v : BitVec 32} {w : BitVec 8}
    (h : windowsGiven L v = some w) :
    w.toNat = max (v.toNat % 256) 1 ∧ w.toNat ≤ 2 ^ L / 2 := by
  obtain ⟨w', hval, hif⟩ := windowsGiven_spec L v
  rw [hif] at h
  by_cases hle : w'.toNat ≤ 2 ^ L / 2
  · rw [if_pos hle, Option.some.injEq] at h
    exact h ▸ ⟨hval, hle⟩
  · rw [if_neg hle] at h
    cases h

theorem one_le_half {L : ℕ} (hL : 1 ≤ L) : 1 ≤ 2 ^ L / 2 := by
  obtain ⟨m, rfl⟩ := Nat.exists_eq_add_of_le' hL
  rw [pow_succ, Nat.mul_div_cancel _ (by decide)]
  exact Nat.one_le_two_pow

theorem windowsGiven_one {L : ℕ} (hL : 1 ≤ L) : windowsGiven L 1 = some 1 := by
  obtain ⟨w, hval, hif⟩ := windowsGiven_spec L 1
  have hone : w.toNat = 1 := hval
  rw [hif, if_pos (by rw [hone]; exact one_le_half hL)]
  exact congrArg some (BitVec.eq_of_toNat_eq hone)

/-- A word is refused exactly if its low byte is more than half the depth. -/
theorem windowsGiven_none {L : ℕ} (hL : 1 ≤ L) (v : BitVec 32) :
    windowsGiven L v = none ↔ 2 ^ L / 2 < v.toNat % 256 := by
  have hhalf := one_le_half hL
  obtain ⟨w, hval, hif⟩ := windowsGiven_spec L v
  rw [hif, hval]
  by_cases hle : max (v.toNat % 256) 1 ≤ 2 ^ L / 2
  · simp only [hle, ↓reduceIte, reduceCtorEq, false_iff]
    omega
  · simp only [hle, ↓reduceIte, true_iff]
    omega

/-- The register always holds a count that can be captured. -/
theorem windows_bounds (c₀ : Capture p) (inp : ℕ → CaptureIn p) (n : ℕ) :
    1 ≤ (run c₀ inp n).csr.windowsQ.toNat ∧
      (run c₀ inp n).csr.windowsQ.toNat ≤ Core.depth p.depthLog2 / 2 := by
  rw [windows_latest]
  refine @latest_property (BitVec 8) (fun w => 1 ≤ w.toNat ∧ w.toNat ≤ 2 ^ p.depthLog2 / 2) _ _ ?_
    (fun k x hx => ?_) n
  · have h2 : 2 ^ 8 ≤ 2 ^ p.depthLog2 := Nat.pow_le_pow_right (by decide) p.le_depthLog2
    exact ⟨le_rfl, by change 1 ≤ _; omega⟩
  · obtain ⟨v, -, hv⟩ := Option.bind_eq_some_iff.mp hx
    obtain ⟨hval, hle⟩ := windowsGiven_some hv
    exact ⟨by omega, hle⟩

/-- From an arm to a cycle still in the capture the FSM is never in `IDLE`. -/
theorem busy_since_arm {a n : ℕ} (ha : Core.LastArm c₀.core (coreInp c₀ inp) a n)
    (hn : stAt c₀ inp n ≠ .idle) : ∀ v, a < v → v ≤ n → stAt c₀ inp v ≠ .idle := by
  obtain ⟨hlt, -, hquiet⟩ := ha
  induction n, hlt using Nat.le_induction with
  | base =>
    intro v h₁ h₂
    rwa [show v = a + 1 by omega]
  | succ n hlt ih =>
    have hno : Core.armAccept (run c₀ inp n).core (coreInp c₀ inp n) = false := by
      rw [core_run]
      exact hquiet n hlt (Nat.lt_succ_self n)
    have hprev : stAt c₀ inp n ≠ .idle := by
      intro hidle
      apply hn
      have hm := move_at c₀ inp n
      unfold stAt at hidle ⊢
      generalize (run c₀ inp (n + 1)).core = c' at hm ⊢
      cases hm with
      | abort => rfl
      | rest => exact hidle
      | start h => rw [h] at hno; cases hno
      | fill _ hs | backlog _ hs | circulate _ hs | trigger _ hs | post _ hs | complete _ hs
      | rearm _ hs | park _ hs => exact absurd (hs.symm.trans hidle) (by decide)
    exact Core.extend_range (ih hprev fun v h₁ h₂ => hquiet v h₁ (by omega)) hn

/-- The arm is no configuration write. -/
theorem cfgWrOk_arm {b : CsrBus} (h : b.arm = true) (st : ScopeState) :
    Csr.cfgWrOk b st = false := by
  simp only [CsrBus.arm, CsrBus.wrCtrl, Bool.and_eq_true, beq_iff_eq] at h
  have hno : b.isCfgAddr = false := by
    rw [CsrBus.isCfgAddr, CsrBus.isLaneAddr, CsrBus.isSeqAddr, h.1.2]
    decide
  rw [Csr.cfgWrOk, hno, Bool.and_false, Bool.false_and]

/-- From the arm on the configuration stays what it was at the arm. -/
theorem configOut_held {a n : ℕ} (ha : Core.LastArm c₀.core (coreInp c₀ inp) a n)
    (hn : stAt c₀ inp n ≠ .idle) : configOut c₀ inp n = configOut c₀ inp a := by
  have hstep : configOut c₀ inp (a + 1) = configOut c₀ inp a := by
    have harm := ha.accept
    simp only [Core.armAccept, Bool.and_eq_true] at harm
    exact configOut_kept (cfgWrOk_arm harm.1.1 _)
  have hheld := configOut_locked ha.lt fun v h₁ h₂ => busy_since_arm ha hn v h₁ h₂.le
  exact hheld.trans hstep

theorem windowsQ_held {a n : ℕ} (ha : Core.LastArm c₀.core (coreInp c₀ inp) a n)
    (hn : stAt c₀ inp n ≠ .idle) : (run c₀ inp n).csr.windowsQ = (run c₀ inp a).csr.windowsQ :=
  congrArg ConfigOut.windows (configOut_held ha hn)

theorem pretrigQ_held {a n : ℕ} (ha : Core.LastArm c₀.core (coreInp c₀ inp) a n)
    (hn : stAt c₀ inp n ≠ .idle) : (run c₀ inp n).csr.pretrigQ = (run c₀ inp a).csr.pretrigQ :=
  congrArg ConfigOut.pretrig (configOut_held ha hn)

/-- The core counts to what the register held at the arm. -/
theorem windowsQ_armed {a n : ℕ} (ha : Core.LastArm c₀.core (coreInp c₀ inp) a n) :
    (run c₀ inp n).core.windowsQ = (run c₀ inp a).csr.windowsQ := by
  rw [core_run, ha.windowsQ]
  rfl

/-- During a capture the core counts to what the register holds. -/
theorem windowsQ_latched {n : ℕ} (hn : stAt c₀ inp n ≠ .idle) :
    (run c₀ inp n).core.windowsQ = (run c₀ inp n).csr.windowsQ := by
  obtain ⟨a, ha⟩ := lastArm_of_busy hn
  rw [windowsQ_held ha hn, windowsQ_armed ha]

end Capture

end FpgaScope
