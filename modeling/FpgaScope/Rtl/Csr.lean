import FpgaScope.Rtl.Core
import FpgaScope.Rtl.Trigger

/-! `scope_csr`: the register file on the native bus. Reads are combinational on
the address; strobes last one cycle. The core's outputs are read off the core's
state. -/

namespace FpgaScope

/-- The native CSR bus in one cycle. -/
structure CsrBus where
  addr : BitVec 8
  wdata : BitVec 32
  write : Bool
  read : Bool

namespace Params

variable (p : Params)

/-- 32-bit lanes of a comparator field. -/
def lanes : ℕ := (p.probeW + 31) / 32

def padW : ℕ := p.lanes * 32

/-- 32-bit lanes of a stored word. -/
def bufLanes : ℕ := (p.storeW + 31) / 32

def bufPadW : ℕ := p.bufLanes * 32

def laneCntW : ℕ := if 1 < p.bufLanes then Nat.clog 2 p.bufLanes else 1

end Params

/-- Registers of `scope_csr`. -/
structure Csr (p : Params) where
  cmpSelQ : BitVec 4
  /-- Lane-padded fields, indexed by field and comparator. -/
  cmpQ : Fin 4 → Fin numCmp → BitVec p.padW
  trigCombineQ : BitVec 32
  seqCntQ : Fin seqStages → BitVec 32
  rleEnableQ : Bool
  smplCtrlQ : BitVec 32
  pretrigQ : BitVec p.depthLog2
  windowsQ : BitVec 8
  cfgErr : Bool
  forcePend : Bool
  drainAddr : BitVec p.depthLog2
  drainLane : BitVec p.laneCntW
  winSelQ : BitVec 8
  tsHiShadow : BitVec (p.tsW - 32)

/-! ### Decode -/

namespace CsrBus

variable (b : CsrBus)

def wrCtrl : Bool := b.write && b.addr == csrCtrl

def softRst : Bool := b.wrCtrl && b.wdata.getLsbD 3

def isLaneAddr : Bool := decide (csrCmpLaneBase ≤ b.addr) && decide (b.addr < csrCmpLaneBase + csrCmpLaneWords)

def isSeqAddr : Bool :=
  decide (csrSeqCntBase ≤ b.addr) && decide (b.addr < csrSeqCntBase + BitVec.ofNat 8 seqStages)

def isCfgAddr : Bool :=
  b.addr == csrPretrig || b.addr == csrWindows || b.addr == csrRleCtrl || b.addr == csrCmpSel ||
    b.addr == csrSmplCtrl || b.isLaneAddr || b.addr == csrTrigCombine || b.isSeqAddr

/-- Strobes to the core, combinational with the write. -/
def arm : Bool := b.wrCtrl && b.wdata.getLsbD 0

/-- A soft reset disarms too. -/
def disarm : Bool := b.wrCtrl && (b.wdata.getLsbD 1 || b.wdata.getLsbD 3)

def forceStrobe : Bool := b.wrCtrl && b.wdata.getLsbD 2

/-- A window count of 0 is stored as 1. -/
def windowsWval : BitVec 8 := if b.wdata.setWidth 8 == 0 then 1 else b.wdata.setWidth 8

def windowsBad (depthLog2 : ℕ) : Bool := decide (1 <<< (depthLog2 - 1) < b.windowsWval.toNat)

def laneIdx : ℕ := (b.addr.setWidth 4).toNat

def seqIdx : Fin seqStages := ((b.addr - csrSeqCntBase).setWidth 2).toFin

/-- `BUF_DATA` pop. -/
def pop : Bool := b.read && b.addr == csrBufData

def bufReset : Bool := b.write && b.addr == csrBufCtrl && b.wdata.getLsbD 0

end CsrBus

/-- `x[32*j +: 32]`. -/
def getLane {w : ℕ} (x : BitVec w) (j : ℕ) : BitVec 32 := x.extractLsb' (32 * j) 32

/-- `x[32*j +: 32] <= v`. -/
def setLane {w : ℕ} (x : BitVec w) (j : ℕ) (v : BitVec 32) : BitVec w :=
  (x &&& ~~~((BitVec.allOnes 32).setWidth w <<< (32 * j))) ||| (v.setWidth w <<< (32 * j))

namespace Csr

variable {p : Params} {W L T : ℕ}

/-- `lane_wmask`: zeroes the bits beyond `PROBE_W` in the top lane. -/
def laneWmask (p : Params) (j : ℕ) : BitVec 32 :=
  let rem : ℤ := p.probeW - 32 * j
  if 32 ≤ rem then BitVec.allOnes 32
  else if rem ≤ 0 then 0
  else ((1 : BitVec 32) <<< rem.toNat) - 1

def cfgLocked (st : ScopeState) : Bool := st != .idle

def cfgWrOk (b : CsrBus) (st : ScopeState) : Bool := b.write && b.isCfgAddr && !cfgLocked st

/-! Configuration outputs -/

def decim (c : Csr p) : BitVec 24 := c.smplCtrlQ.setWidth 24

def qualEn (c : Csr p) : Bool := c.smplCtrlQ.getLsbD 24

def qualSel (c : Csr p) : Fin numCmp := (c.smplCtrlQ.extractLsb' 25 2).toFin

def trigCfg (c : Csr p) : TrigCfg p.probeW where
  cmpMask k := (c.cmpQ cmpFieldMask k).setWidth p.probeW
  cmpValue k := (c.cmpQ cmpFieldValue k).setWidth p.probeW
  cmpEdgeMask k := (c.cmpQ cmpFieldEdgeMask k).setWidth p.probeW
  cmpEdgePol k := (c.cmpQ cmpFieldEdgePol k).setWidth p.probeW
  trigCombine := c.trigCombineQ
  seqCnt := c.seqCntQ

/-! Clocked process -/

def reset (p : Params) : Csr p where
  cmpSelQ := 0
  cmpQ := fun _ _ => 0
  trigCombineQ := 0
  seqCntQ := fun _ => 1
  rleEnableQ := false
  smplCtrlQ := 0
  pretrigQ := 0
  windowsQ := 1
  cfgErr := false
  forcePend := false
  drainAddr := 0
  drainLane := 0
  winSelQ := 0
  tsHiShadow := 0

/-- The configuration registers, on a write that is not locked out. -/
def writeCfg (c : Csr p) (b : CsrBus) : Csr p :=
  { c with
    pretrigQ := if b.addr == csrPretrig then b.wdata.setWidth p.depthLog2 else c.pretrigQ
    windowsQ := if b.addr == csrWindows && !b.windowsBad p.depthLog2 then b.windowsWval else c.windowsQ
    rleEnableQ := if b.addr == csrRleCtrl then b.wdata.getLsbD 0 else c.rleEnableQ
    smplCtrlQ := if b.addr == csrSmplCtrl then b.wdata else c.smplCtrlQ
    cmpSelQ := if b.addr == csrCmpSel then b.wdata.setWidth 4 else c.cmpSelQ
    cmpQ := fun f k =>
      if b.isLaneAddr && decide (32 * b.laneIdx < p.probeW) && f == (c.cmpSelQ.extractLsb' 2 2).toFin &&
          k == (c.cmpSelQ.setWidth 2).toFin then
        setLane (c.cmpQ f k) b.laneIdx (b.wdata &&& laneWmask p b.laneIdx)
      else c.cmpQ f k
    trigCombineQ := if b.addr == csrTrigCombine then b.wdata else c.trigCombineQ
    seqCntQ := fun n => if b.isSeqAddr && n == b.seqIdx then b.wdata else c.seqCntQ n }

def cfgErrNext (c : Csr p) (b : CsrBus) (st : ScopeState) : Bool :=
  if b.softRst then false
  else if b.write && b.isCfgAddr && cfgLocked st then true
  else if b.write && b.addr == csrWindows && b.windowsBad p.depthLog2 then true
  else c.cfgErr

/-- Pending force: set by the strobe in `FILLING` or `ARMED`, dropped by a disarm
and outside these states. -/
def forcePendNext (c : Csr p) (b : CsrBus) (st : ScopeState) : Bool :=
  if b.disarm then false
  else if b.forceStrobe && (st == .filling || st == .armed) then true
  else if st != .filling && st != .armed then false
  else c.forcePend

/-- The drain pointer counts lanes, then addresses. -/
def drainNext (c : Csr p) (b : CsrBus) : BitVec p.depthLog2 × BitVec p.laneCntW :=
  if b.softRst || b.bufReset then (0, 0)
  else if b.pop then
    if c.drainLane == BitVec.ofNat p.laneCntW (p.bufLanes - 1) then (c.drainAddr + 1, 0)
    else (c.drainAddr, c.drainLane + 1)
  else (c.drainAddr, c.drainLane)

/-- One clock edge outside reset; `core` supplies `state` and `ts`. -/
def step (c : Csr p) (b : CsrBus) (core : Core W L p.tsW) : Csr p :=
  let cfg := if cfgWrOk b core.st then c.writeCfg b else c
  { cfg with
    cfgErr := c.cfgErrNext b core.st
    forcePend := c.forcePendNext b core.st
    drainAddr := (c.drainNext b).1
    drainLane := (c.drainNext b).2
    winSelQ := if b.softRst then 0
      else if b.write && b.addr == csrWinSel then b.wdata.setWidth 8 else c.winSelQ
    tsHiShadow := if b.softRst then 0
      else if b.read && b.addr == csrTsLo then core.ts.extractLsb' 32 (p.tsW - 32) else c.tsHiShadow }

/-! Read mux -/

/-- `{16'h0, windows_done, 2'b00, cfg_err, wrapped, triggered, state}`. -/
def statusWord (c : Csr p) (core : Core W L T) : BitVec 32 :=
  (0#16 ++ core.windowsDone ++ 0#2 ++ BitVec.ofBool c.cfgErr ++ BitVec.ofBool core.wrapped ++
    BitVec.ofBool core.triggered ++ core.st.code)

/-- `{13'h0, RLE_EN, 4'(NUM_CMP), 4'(DEPTH_LOG2), 10'(PROBE_W)}`. -/
def hwcfgWord (p : Params) : BitVec 32 :=
  (0#13 ++ BitVec.ofBool p.rleEn ++ BitVec.ofNat 4 numCmp ++ BitVec.ofNat 4 p.depthLog2 ++
    BitVec.ofNat 10 p.probeW)

/-- `csr_rdata`. -/
def rdata (c : Csr p) (b : CsrBus) (core : Core p.storeW p.depthLog2 p.tsW) : BitVec 32 :=
  if b.addr == csrId then scopeIdReg
  else if b.addr == csrHwcfg then hwcfgWord p
  else if b.addr == csrStatus then c.statusWord core
  else if b.addr == csrPretrig then c.pretrigQ.setWidth 32
  else if b.addr == csrWindows then c.windowsQ.setWidth 32
  else if b.addr == csrRleCtrl then (BitVec.ofBool c.rleEnableQ).setWidth 32
  else if b.addr == csrSmplCtrl then c.smplCtrlQ
  else if b.addr == csrTsLo then core.ts.setWidth 32
  else if b.addr == csrTsHi then c.tsHiShadow.setWidth 32
  else if b.addr == csrTrigIndex then core.trigIndex.setWidth 32
  else if b.addr == csrTstrigLo then core.tsAtTrig.setWidth 32
  else if b.addr == csrTstrigHi then (core.tsAtTrig.extractLsb' 32 (p.tsW - 32)).setWidth 32
  else if b.addr == csrWinSel then c.winSelQ.setWidth 32
  else if b.addr == csrWinMeta then core.uWinMeta.rdData.setWidth 32
  else if b.addr == csrCmpSel then c.cmpSelQ.setWidth 32
  else if b.isLaneAddr then
    if 32 * b.laneIdx < p.probeW then
      getLane (c.cmpQ (c.cmpSelQ.extractLsb' 2 2).toFin (c.cmpSelQ.setWidth 2).toFin) b.laneIdx
    else 0
  else if b.addr == csrTrigCombine then c.trigCombineQ
  else if b.isSeqAddr then c.seqCntQ b.seqIdx
  else if b.addr == csrBufData then
    getLane (core.uBuf.rdData.setWidth p.bufPadW) c.drainLane.toNat
  else 0

end Csr

end FpgaScope
