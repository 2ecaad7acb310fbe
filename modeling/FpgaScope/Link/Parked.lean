import FpgaScope.Capture.BufData
import FpgaScope.Core.Rest
import FpgaScope.Engine.Intact
import FpgaScope.Link.Call

/-! The register file under the operations of a `DRAIN`, with the core parked. Each strobe
returns what the dump needs: the drain pointer and `WIN_SEL` have their places in the
sequence, and the read registers of the two memories have settled before a strobe,
because the servicer takes an edge of `clk` to load its command. -/

namespace FpgaScope

open Protocol

namespace Capture

variable {p : Params}

/-- Windows in a dump. -/
def windows (c : Capture p) : ℕ := c.core.windowsDone.toNat

/-- The reply to operation `k` of a `DRAIN`. -/
def drainReply (c : Capture p) (k : ℕ) : BitVec 32 :=
  if k = 0 then c.csr.statusWord c.core
  else if k = 1 then c.core.trigIndex.setWidth 32
  else if k = 2 then c.core.tsAtTrig.setWidth 32
  else if k = 3 then (c.core.tsAtTrig.extractLsb' 32 (p.tsW - 32)).setWidth 32
  else if k = 4 then (BitVec.ofBool c.csr.rleEnableQ).setWidth 32
  else if k < 5 + 2 * c.windows then
    if (k - 5) % 2 = 0 then BitVec.ofNat 32 ((k - 5) / 2)
    else (c.core.uWinMeta.mem (BitVec.ofNat 8 ((k - 5) / 2))).setWidth 32
  else if k = 5 + 2 * c.windows then 1
  else
    let i := k - (6 + 2 * c.windows)
    getLane ((c.core.uBuf.mem (BitVec.ofNat p.depthLog2 (i / p.bufLanes))).setWidth p.bufPadW)
      (i % p.bufLanes)

section
variable (c : Capture p)

theorem drainReply_select {w : ℕ} (hw : w < c.windows) :
    c.drainReply (5 + 2 * w) = BitVec.ofNat 32 w := by
  simp only [drainReply, show 5 + 2 * w ≠ 0 by omega, show 5 + 2 * w ≠ 1 by omega,
    show 5 + 2 * w ≠ 2 by omega, show 5 + 2 * w ≠ 3 by omega, show 5 + 2 * w ≠ 4 by omega,
    show 5 + 2 * w < 5 + 2 * c.windows by omega, show (5 + 2 * w - 5) % 2 = 0 by omega,
    show (5 + 2 * w - 5) / 2 = w by omega, ↓reduceIte]

theorem drainReply_meta {w : ℕ} (hw : w < c.windows) :
    c.drainReply (5 + (2 * w + 1)) = (c.core.uWinMeta.mem (BitVec.ofNat 8 w)).setWidth 32 := by
  simp only [drainReply, show 5 + (2 * w + 1) ≠ 0 by omega, show 5 + (2 * w + 1) ≠ 1 by omega,
    show 5 + (2 * w + 1) ≠ 2 by omega, show 5 + (2 * w + 1) ≠ 3 by omega,
    show 5 + (2 * w + 1) ≠ 4 by omega, show 5 + (2 * w + 1) < 5 + 2 * c.windows by omega,
    show (5 + (2 * w + 1) - 5) % 2 ≠ 0 by omega, show (5 + (2 * w + 1) - 5) / 2 = w by omega,
    ↓reduceIte]

theorem drainReply_rewind : c.drainReply (5 + 2 * c.windows) = 1 := by
  have hne : ∀ k < 5, 5 + 2 * c.windows ≠ k := fun k hk => by omega
  simp only [drainReply, hne 0 (by omega), hne 1 (by omega), hne 2 (by omega), hne 3 (by omega),
    hne 4 (by omega), lt_irrefl, ↓reduceIte]

theorem drainReply_data (i : ℕ) : c.drainReply (6 + 2 * c.windows + i) =
    getLane ((c.core.uBuf.mem (BitVec.ofNat p.depthLog2 (i / p.bufLanes))).setWidth p.bufPadW)
      (i % p.bufLanes) := by
  have hne : ∀ k < 6, 6 + 2 * c.windows + i ≠ k := fun k hk => by omega
  simp only [drainReply, hne 0 (by omega), hne 1 (by omega), hne 2 (by omega), hne 3 (by omega),
    hne 4 (by omega), show ¬ 6 + 2 * c.windows + i < 5 + 2 * c.windows by omega,
    show 6 + 2 * c.windows + i ≠ 5 + 2 * c.windows by omega,
    show 6 + 2 * c.windows + i - (6 + 2 * c.windows) = i by omega, ↓reduceIte]

/-! ### `STATUS` -/

theorem statusWord_getLsbD (i : ℕ) : (c.csr.statusWord c.core).getLsbD i =
    if i < 3 then c.core.st.code.getLsbD i
    else if i - 3 < 1 then (BitVec.ofBool c.core.triggered).getLsbD (i - 3)
    else if i - 3 - 1 < 1 then (BitVec.ofBool c.core.wrapped).getLsbD (i - 3 - 1)
    else if i - 3 - 1 - 1 < 1 then (BitVec.ofBool c.csr.cfgErr).getLsbD (i - 3 - 1 - 1)
    else if i - 3 - 1 - 1 - 1 < 2 then (0#2).getLsbD (i - 3 - 1 - 1 - 1)
    else if i - 3 - 1 - 1 - 1 - 2 < 8 then c.core.windowsDone.getLsbD (i - 3 - 1 - 1 - 1 - 2)
    else (0#16).getLsbD (i - 3 - 1 - 1 - 1 - 2 - 8) := by
  refine BitVec.getLsbD_append.trans ?_
  rw [BitVec.getLsbD_append, BitVec.getLsbD_append, BitVec.getLsbD_append, BitVec.getLsbD_append,
    BitVec.getLsbD_append]

theorem status_windows : (c.drainReply 0).extractLsb' 8 8 = c.core.windowsDone := by
  apply BitVec.eq_of_getLsbD_eq
  intro i hi
  rw [BitVec.getLsbD_extractLsb', drainReply, if_pos rfl, statusWord_getLsbD]
  simp [hi, show ¬ 8 + i < 3 by omega, show ¬ 8 + i - 3 < 1 by omega,
    show ¬ 8 + i - 3 - 1 < 1 by omega, show ¬ 8 + i - 3 - 1 - 1 < 1 by omega,
    show ¬ 8 + i - 3 - 1 - 1 - 1 < 2 by omega, show 8 + i - 3 - 1 - 1 - 1 - 2 = i by omega]

theorem status_wrapped : (c.drainReply 0).getLsbD 4 = c.core.wrapped := by
  rw [drainReply, if_pos rfl, statusWord_getLsbD]
  simp

theorem windowsOf_drainReply : windowsOf (c.drainReply 0) = c.windows := by
  rw [windowsOf, status_windows, windows]

end

end Capture

/-! ### The operations by position -/

namespace Protocol

variable {p : Params}

theorem metaOps_length (W : ℕ) : ((List.range W).flatMap metaOps).length = 2 * W := by
  simp only [metaOps, List.length_flatMap, List.length_cons, List.length_nil, List.map_const',
    List.length_range, List.sum_replicate_nat]
  omega

theorem metaOps_get (W i : ℕ) : ((List.range W).flatMap metaOps)[i]? =
    if i < 2 * W then
      some (if i % 2 = 0 then CsrOp.wr csrWinSel (BitVec.ofNat 32 (i / 2)) else CsrOp.rd csrWinMeta)
    else none := by
  induction W with
  | zero => simp
  | succ W ih =>
    have hlen := metaOps_length W
    rw [List.range_succ, List.flatMap_append, List.flatMap_singleton]
    rcases Nat.lt_or_ge i (2 * W) with hlt | hge
    · rw [List.getElem?_append_left (by omega), ih, if_pos hlt, if_pos (show i < 2 * (W + 1) by omega)]
    · obtain ⟨j, rfl⟩ := Nat.exists_eq_add_of_le hge
      rw [List.getElem?_append_right (by omega), hlen, Nat.add_sub_cancel_left]
      rcases j with _ | _ | j
      · rw [if_pos (by omega), if_pos (by omega), show (2 * W + 0) / 2 = W by omega]
        rfl
      · rw [if_pos (by omega), if_neg (by omega)]
        rfl
      · rw [if_neg (by omega)]
        rfl

/-- Which operation of a `DRAIN` comes at position `k`. -/
theorem drainOps_cases {reply : ℕ → BitVec 32} {W k : ℕ} {o : CsrOp} (hW : windowsOf (reply 0) = W)
    (h : (drainOps p reply)[k]? = some o) :
    (k < 5 ∧ gatherOps[k]? = some o) ∨
    (∃ w < W, k = 5 + 2 * w ∧ o = .wr csrWinSel (BitVec.ofNat 32 w)) ∨
    (∃ w < W, k = 5 + (2 * w + 1) ∧ o = .rd csrWinMeta) ∨
    (k = 5 + 2 * W ∧ o = .wr csrBufCtrl 1) ∨
    ∃ i < p.depth * p.bufLanes, k = 6 + 2 * W + i ∧ o = .rd csrBufData := by
  have hmeta := metaOps_length W
  have hgather : gatherOps.length = 5 := rfl
  rw [drainOps, hW, List.append_assoc] at h
  rcases Nat.lt_or_ge k 5 with hlt | hge
  · rw [List.getElem?_append_left (by omega)] at h
    exact Or.inl ⟨hlt, h⟩
  obtain ⟨j, rfl⟩ := Nat.exists_eq_add_of_le hge
  rw [List.getElem?_append_right (by omega), hgather, Nat.add_sub_cancel_left] at h
  rcases Nat.lt_or_ge j (2 * W) with hlt | hge'
  · rw [List.getElem?_append_left (by omega), metaOps_get, if_pos hlt] at h
    obtain rfl := Option.some.inj h
    rcases Nat.mod_two_eq_zero_or_one j with h0 | h1
    · exact Or.inr (Or.inl ⟨j / 2, by omega, by omega, by rw [if_pos h0]⟩)
    · exact Or.inr (Or.inr (Or.inl ⟨j / 2, by omega, by omega, by rw [if_neg (by omega)]⟩))
  obtain ⟨i, rfl⟩ := Nat.exists_eq_add_of_le hge'
  rw [List.getElem?_append_right (by omega), hmeta, Nat.add_sub_cancel_left] at h
  cases i with
  | zero => exact Or.inr (Or.inr (Or.inr (Or.inl ⟨rfl, (Option.some.inj h).symm⟩)))
  | succ i =>
    rw [List.getElem?_cons_succ] at h
    obtain ⟨hi, rfl⟩ := List.getElem?_eq_some_iff.mp h
    rw [List.length_replicate] at hi
    rw [List.getElem_replicate]
    exact Or.inr (Or.inr (Or.inr (Or.inr ⟨i, hi, by omega, rfl⟩)))

end Protocol

/-! ### Strobes -/

namespace Csr

variable {p : Params}

/-- The bus in the strobe of an operation. -/
def strobe (o : CsrOp) : CsrBus := { addr := o.addr, wdata := o.wdata, write := o.write, read := !o.write }

/-- The register file after operation `k` of a `DRAIN` that started from `c₀`. -/
structure View (c₀ : Capture p) (k : ℕ) (c : Csr p) : Prop where
  cfgErr : c.cfgErr = c₀.csr.cfgErr
  rleEnable : c.rleEnableQ = c₀.csr.rleEnableQ
  winSel : ∀ w < c₀.windows, k = 5 + (2 * w + 1) → c.winSelQ = BitVec.ofNat 8 w
  drainAddr : ∀ i, k = 6 + 2 * c₀.windows + i → c.drainAddr = BitVec.ofNat p.depthLog2 (i / p.bufLanes)
  drainLane : ∀ i, k = 6 + 2 * c₀.windows + i → c.drainLane = BitVec.ofNat p.laneCntW (i % p.bufLanes)

/-- A bus that writes nothing but `WIN_SEL` and `BUF_CTRL`. -/
def Harmless (b : CsrBus) : Prop := b.write = true → b.addr = csrWinSel ∨ b.addr = csrBufCtrl

variable {W L : ℕ} {c : Csr p} {b : CsrBus}

theorem Harmless.decode (h : Harmless b) :
    b.wrCtrl = false ∧ (b.write && b.isCfgAddr) = false ∧ (b.write && b.addr == csrWindows) = false := by
  unfold CsrBus.wrCtrl
  cases hw : b.write with
  | false => exact ⟨rfl, rfl, rfl⟩
  | true =>
    unfold CsrBus.isCfgAddr CsrBus.isLaneAddr CsrBus.isSeqAddr
    rcases h hw with ha | ha
    · rw [ha]
      exact ⟨rfl, rfl, rfl⟩
    · rw [ha]
      exact ⟨rfl, rfl, rfl⟩

/-- What such a bus changes. -/
theorem Harmless.step (h : Harmless b) (core : Core W L p.tsW) :
    (c.step b core).cfgErr = c.cfgErr ∧ (c.step b core).rleEnableQ = c.rleEnableQ ∧
    (c.step b core).winSelQ =
      (if b.write && b.addr == csrWinSel then b.wdata.setWidth 8 else c.winSelQ) ∧
    ((c.step b core).drainAddr, (c.step b core).drainLane) =
      if b.bufReset then (0, 0)
      else if b.pop then
        if c.drainLane == BitVec.ofNat p.laneCntW (p.bufLanes - 1) then (c.drainAddr + 1, 0)
        else (c.drainAddr, c.drainLane + 1)
      else (c.drainAddr, c.drainLane) := by
  obtain ⟨hctrl, hcfg, hwin⟩ := h.decode
  have hsoft : b.softRst = false := by rw [CsrBus.softRst, hctrl, Bool.false_and]
  have hok : cfgWrOk b core.st = false := by rw [cfgWrOk, hcfg, Bool.false_and]
  refine ⟨?_, ?_, ?_, ?_⟩
  · change c.cfgErrNext b core.st = _
    rw [cfgErrNext, hsoft, hcfg, hwin]
    rfl
  · change (if cfgWrOk b core.st then c.writeCfg b else c).rleEnableQ = _
    rw [hok]
    rfl
  · change (if b.softRst then 0 else if b.write && b.addr == csrWinSel then _ else _) = _
    rw [hsoft]
    rfl
  · change c.drainNext b = _
    rw [drainNext, hsoft]
    rfl

namespace View

variable {c₀ : Capture p} {k : ℕ}

theorem start (c₀ : Capture p) : View c₀ 0 c₀.csr :=
  ⟨rfl, rfl, fun _ _ h => by omega, fun _ h => by omega, fun _ h => by omega⟩

/-- Between strobes nothing changes. -/
theorem quiet (hv : View c₀ k c) (hw : b.write = false) (hr : b.read = false) (core : Core W L p.tsW) :
    View c₀ k (c.step b core) := by
  have hb : Harmless b := fun hx => by rw [hw] at hx; cases hx
  obtain ⟨herr, hrle, hsel, hptr⟩ := hb.step (c := c) core
  have hreset : b.bufReset = false := by rw [CsrBus.bufReset, hw]; rfl
  have hpop : b.pop = false := by rw [CsrBus.pop, hr]; rfl
  rw [hw, if_neg (by simp)] at hsel
  rw [hreset, hpop] at hptr
  obtain ⟨haddr, hlane⟩ := Prod.mk.inj hptr
  exact ⟨herr.trans hv.cfgErr, hrle.trans hv.rleEnable, fun w h h' => hsel.trans (hv.winSel w h h'),
    fun i h => haddr.trans (hv.drainAddr i h), fun i h => hlane.trans (hv.drainLane i h)⟩

variable {o : CsrOp}

/-- Every operation of a `DRAIN` is harmless. -/
theorem harmless {reply : ℕ → BitVec 32} (h : (drainOps p reply)[k]? = some o) :
    Harmless (strobe o) := by
  intro hw
  rcases drainOps_cases rfl h with ⟨hk, hg⟩ | ⟨w, -, -, rfl⟩ | ⟨w, -, -, rfl⟩ | ⟨-, rfl⟩ |
    ⟨i, -, -, rfl⟩
  · have hread : ∀ o ∈ gatherOps, o.write = false := by decide
    have hx := hread o (List.mem_of_getElem? hg)
    rw [strobe, hx] at hw
    cases hw
  · exact Or.inl rfl
  · cases hw
  · exact Or.inr rfl
  · cases hw

/-- Outside the places where a selector matters there is nothing more to show. -/
theorem elsewhere {core : Core W L p.tsW} (hv : View c₀ k c)
    (h : (drainOps p c₀.drainReply)[k]? = some o) (hsel : ∀ w < c₀.windows, k + 1 ≠ 5 + (2 * w + 1))
    (hptr : k + 1 < 6 + 2 * c₀.windows) : View c₀ (k + 1) (c.step (strobe o) core) := by
  obtain ⟨herr, hrle, -, -⟩ := (harmless h).step (c := c) core
  exact ⟨herr.trans hv.cfgErr, hrle.trans hv.rleEnable, fun w hw h => absurd h (hsel w hw),
    fun i h => by omega, fun i h => by omega⟩

/-- The pointer after one more `BUF_DATA` read. -/
theorem pointer_succ {core : Core W L p.tsW} {i : ℕ} (hv : View c₀ k c)
    (hk : k = 6 + 2 * c₀.windows + i) :
    (c.step (strobe (.rd csrBufData)) core).drainAddr = BitVec.ofNat p.depthLog2 ((i + 1) / p.bufLanes) ∧
    (c.step (strobe (.rd csrBufData)) core).drainLane = BitVec.ofNat p.laneCntW ((i + 1) % p.bufLanes) := by
  have hnext := (PointsTo.mk (hv.drainAddr i hk) (hv.drainLane i hk)).step
    (b := strobe (.rd csrBufData)) rfl rfl core
  exact ⟨hnext.addr, hnext.lane⟩

/-- A strobe of a `DRAIN` returns its reply and moves the register file on. -/
theorem strobe {c : Capture p} {o : CsrOp} (hv : View c₀ k c.csr) (hpark : c₀.core.Parked c.core)
    (hbuf : c.core.uBuf.rdData = c.core.uBuf.mem c.csr.drainAddr)
    (hmeta : c.core.uWinMeta.rdData = c.core.uWinMeta.mem c.csr.winSelQ)
    (h : (drainOps p c₀.drainReply)[k]? = some o) :
    (if o.write then o.wdata else c.csr.rdata (Csr.strobe o) c.core) = c₀.drainReply k ∧
      View c₀ (k + 1) (c.csr.step (Csr.strobe o) c.core) := by
  obtain ⟨herr, hrle, hsel, hptr⟩ := (harmless h).step (c := c.csr) c.core
  rcases drainOps_cases c₀.windowsOf_drainReply h with ⟨hk, hg⟩ | ⟨w, hw, rfl, rfl⟩ |
    ⟨w, hw, rfl, rfl⟩ | ⟨rfl, rfl⟩ | ⟨i, hi, rfl, rfl⟩
  · refine ⟨?_, hv.elsewhere h (fun w hw => by omega) (by omega)⟩
    match k, hk, hg with
    | 0, _, hg =>
      obtain rfl := Option.some.inj hg
      change c.csr.statusWord c.core = c₀.csr.statusWord c₀.core
      rw [Csr.statusWord, Csr.statusWord, hpark.st, hpark.triggered, hpark.wrapped,
        hpark.windowsDone, hv.cfgErr]
    | 1, _, hg =>
      obtain rfl := Option.some.inj hg
      change c.core.trigIndex.setWidth 32 = _
      rw [hpark.trigIndex]
      rfl
    | 2, _, hg =>
      obtain rfl := Option.some.inj hg
      change c.core.tsAtTrig.setWidth 32 = _
      rw [hpark.tsAtTrig]
      rfl
    | 3, _, hg =>
      obtain rfl := Option.some.inj hg
      change (c.core.tsAtTrig.extractLsb' 32 (p.tsW - 32)).setWidth 32 = _
      rw [hpark.tsAtTrig]
      rfl
    | 4, _, hg =>
      obtain rfl := Option.some.inj hg
      change (BitVec.ofBool c.csr.rleEnableQ).setWidth 32 = _
      rw [hv.rleEnable]
      rfl
  · refine ⟨(c₀.drainReply_select hw).symm, ⟨herr.trans hv.cfgErr, hrle.trans hv.rleEnable,
      fun w' _ hw' => ?_, fun i hi => by omega, fun i hi => by omega⟩⟩
    obtain rfl : w' = w := by omega
    exact (hsel.trans (if_pos rfl)).trans (BitVec.setWidth_ofNat_of_le (by norm_num) _)
  · refine ⟨?_, hv.elsewhere h (fun w' _ => by omega) (by omega)⟩
    change c.core.uWinMeta.rdData.setWidth 32 = _
    rw [hmeta, hv.winSel w hw rfl, hpark.winMeta, c₀.drainReply_meta hw]
  · obtain ⟨haddr, hlane⟩ := Prod.mk.inj (hptr.trans (if_pos rfl))
    refine ⟨c₀.drainReply_rewind.symm, ⟨herr.trans hv.cfgErr, hrle.trans hv.rleEnable,
      fun w _ hw' => by omega, fun i hi => ?_, fun i hi => ?_⟩⟩
    · obtain rfl : i = 0 := by omega
      rw [haddr, Nat.zero_div]
      rfl
    · obtain rfl : i = 0 := by omega
      rw [hlane, Nat.zero_mod]
      rfl
  · obtain ⟨hpos, hle⟩ := p.bufLanes_bounds
    have hmod := Nat.mod_lt i hpos
    refine ⟨?_, ⟨herr.trans hv.cfgErr, hrle.trans hv.rleEnable, fun w hw hw' => by omega,
      fun i' hi' => ?_, fun i' hi' => ?_⟩⟩
    · change getLane (c.core.uBuf.rdData.setWidth p.bufPadW) c.csr.drainLane.toNat = _
      rw [hbuf, hv.drainAddr i rfl, hv.drainLane i rfl, hpark.buf, BitVec.toNat_ofNat,
        Nat.mod_eq_of_lt (show i % p.bufLanes < 2 ^ p.laneCntW by omega), c₀.drainReply_data]
    · obtain rfl : i' = i + 1 := by omega
      exact (pointer_succ hv rfl).1
    · obtain rfl : i' = i + 1 := by omega
      exact (pointer_succ hv rfl).2

end View

end Csr

end FpgaScope
