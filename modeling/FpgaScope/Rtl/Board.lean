import FpgaScope.Lib.Script
import FpgaScope.Rtl.Capture

/-! `top_scope` around `u_scope`: the address decode of the JTAG-to-Avalon master, the register
that gives the CSR reads their latency of one, and the register in front of the probe. The lines
of the master are inputs, and so is what the other slaves answer. `XPORT` is `"CSR"`: the native
bus of the scope is the only way in. -/

namespace FpgaScope

open Clocked

/-- Inputs of the board in one cycle. -/
structure BoardIn (p : Params) where
  /-- The nets the probe watches. -/
  nets : BitVec p.probeW
  mAddress : BitVec 32
  mRead : Bool
  mWrite : Bool
  mWritedata : BitVec 32
  /-- Read data and `waitrequest` of the other slaves. -/
  readdata : BitVec 32
  waitrequest : Bool

structure Board (p : Params) where
  capture : Capture p
  scopeProbeQ : BitVec p.probeW
  rdHold : BitVec 32
  rdvQ : Bool

/-- `sel_jtag`: the window of `scope_jtag` at 0x800. -/
def selJtag (address : BitVec 32) : Bool := address.getLsbD 11

/-- `sel_scope`: the window at 0x400. -/
def selScope (address : BitVec 32) : Bool := address.getLsbD 10 && !selJtag address

namespace BoardIn

variable {p : Params} (i : BoardIn p)

/-- Neither scope asks the master to wait. -/
def muxWaitrequest : Bool := if selJtag i.mAddress || selScope i.mAddress then false else i.waitrequest

/-- The access that is accepted in this cycle. -/
def accepted : Option (Access (BitVec 32) (BitVec 32)) :=
  if i.muxWaitrequest then none
  else if i.mRead then some (.read i.mAddress)
  else if i.mWrite then some (.write i.mAddress i.mWritedata)
  else none

/-- The native bus of `u_scope`. -/
def scopeBus : CsrBus where
  addr := i.mAddress.extractLsb' 2 8
  wdata := i.mWritedata
  write := i.mWrite && selScope i.mAddress
  read := i.mRead && selScope i.mAddress

end BoardIn

namespace Board

variable {p : Params} (b : Board p) (i : BoardIn p)

def captureIn : CaptureIn p where
  probe := b.scopeProbeQ
  trigExtI := false
  bus := i.scopeBus

def muxReaddata : BitVec 32 :=
  if selScope i.mAddress then b.capture.csrRdata (b.captureIn i) else i.readdata

/-- `m_readdata`, while `m_readdatavalid`. -/
def mReaddata : Option (BitVec 32) := if b.rdvQ then some b.rdHold else none

/-- One edge of `clk` outside reset. -/
def step : Board p where
  capture := b.capture.step (b.captureIn i)
  scopeProbeQ := i.nets
  rdHold := b.muxReaddata i
  rdvQ := i.mRead && !i.muxWaitrequest

/-- Out of reset; the probe register has none. -/
def start (c₀ : Capture p) (probe : BitVec p.probeW) : Board p where
  capture := c₀.reset
  scopeProbeQ := probe
  rdHold := 0
  rdvQ := false

end Board

end FpgaScope
