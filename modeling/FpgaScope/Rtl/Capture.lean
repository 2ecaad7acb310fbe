import FpgaScope.Rtl.Csr
import FpgaScope.Rtl.Rle

/-! The capture domain of `scope_top`: trigger, decimation and qualification, the
optional encoder, core and register file on one clock. The bus master is an input:
the servicer or an external front end. With `RLE_EN = 0` the encoder is not
instantiated and its registers here are connected to nothing. -/

namespace FpgaScope

/-- Inputs of the capture domain in one cycle. -/
structure CaptureIn (p : Params) where
  probe : BitVec p.probeW
  trigExtI : Bool
  bus : CsrBus

structure Capture (p : Params) where
  trigger : Trigger p.probeW
  cmpHitD1 : Fin numCmp → Bool
  decCnt : BitVec 24
  trigPend : Bool
  rle : Rle p.probeW p.depthLog2
  core : Core p.storeW p.depthLog2 p.tsW
  csr : Csr p

namespace Capture

variable {p : Params} (c : Capture p) (i : CaptureIn p)

def trigIn : TrigIn p.probeW where
  probe := i.probe
  run := c.core.st == .armed
  forceTrig := c.csr.forcePend
  trigExtI := i.trigExtI

/-- Sequencer fire, pending force or external trigger. -/
def trig : Bool := c.trigger.trig (c.trigIn i)

def decTick : Bool := c.decCnt == 0

def qualHit : Bool := if c.csr.qualEn then c.cmpHitD1 c.csr.qualSel else true

/-- The store tick: decimation and storage qualification. -/
def sampleEn : Bool := c.decTick && c.qualHit

/-- A trigger on a store tick, held over from the cycles before if need be. -/
def trigFire : Bool := (c.trig i || c.trigPend) && c.sampleEn

def rleIn : RleIn p.probeW where
  enable := c.csr.rleEnableQ
  inData := c.trigger.sampleO
  inValid := c.sampleEn
  flush := false
  trigIn := c.trigFire i

def sampleData : BitVec p.storeW :=
  if p.rleEn then (c.rle.word (c.rleIn i)).setWidth p.storeW else c.trigger.sampleO.setWidth p.storeW

def sampleValid : Bool := if p.rleEn then c.rle.wordValid (c.rleIn i) else c.sampleEn

def coreTrig : Bool := if p.rleEn then c.rle.trigOut (c.rleIn i) else c.trigFire i

def coreIn : CoreIn p.storeW p.depthLog2 where
  sampleData := c.sampleData i
  sampleValid := c.sampleValid i
  trig := c.coreTrig i
  arm := i.bus.arm
  disarm := i.bus.disarm
  pretrig := c.csr.pretrigQ
  windows := c.csr.windowsQ
  rdAddr := c.csr.drainAddr
  winRdAddr := c.csr.winSelQ

/-- `csr_rdata` in this cycle. -/
def csrRdata : BitVec 32 := c.csr.rdata i.bus c.core

/-- The `rst` branch of every block. -/
def reset : Capture p where
  trigger := .reset
  cmpHitD1 := fun _ => false
  decCnt := 0
  trigPend := false
  rle := .reset
  core := c.core.reset
  csr := .reset p

/-- One edge of `clk` outside reset. -/
def step : Capture p where
  trigger := c.trigger.step c.csr.trigCfg (c.trigIn i)
  cmpHitD1 := c.trigger.cmpHitQ
  decCnt := if c.decCnt == 0 then c.csr.decim else c.decCnt - 1
  trigPend := if c.sampleEn then false else if c.trig i then true else c.trigPend
  rle := c.rle.step (c.rleIn i)
  core := c.core.step (c.coreIn i)
  csr := c.csr.step i.bus c.core

end Capture

end FpgaScope
