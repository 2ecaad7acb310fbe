import FpgaScope.Rtl.Capture
import FpgaScope.Rtl.Drain
import FpgaScope.Rtl.FifoAsync

/-! The transport side of `scope_top`: the frame engine on `xclk`, the servicer that masters
the native bus on `clk`, and a FIFO for each direction in between. An event is an edge of
either clock or of both, with the inputs of that moment. -/

namespace FpgaScope

/-! ### The servicer -/

/-- `sv_e`. -/
inductive SvState where
  | idle | exec | push
  deriving DecidableEq

structure Servicer where
  sv : SvState
  svWrite : Bool
  svAddr : BitVec 8
  svWdata : BitVec 32
  svResult : BitVec 32

namespace Servicer

def reset : Servicer := { sv := .idle, svWrite := false, svAddr := 0, svWdata := 0, svResult := 0 }

/-- The operation in the command registers. -/
def op (s : Servicer) : CsrOp := { write := s.svWrite, addr := s.svAddr, wdata := s.svWdata }

def cmdRdReady (s : Servicer) : Bool := s.sv == .idle

def rspWrValid (s : Servicer) : Bool := s.sv == .push

/-- The native bus: a strobe of one cycle in `SV_EXEC`. -/
def bus (s : Servicer) : CsrBus where
  addr := s.svAddr
  wdata := s.svWdata
  write := s.sv == .exec && s.svWrite
  read := s.sv == .exec && !s.svWrite

/-- What the strobe returns: `csr_rdata`, or the written value. -/
def result (s : Servicer) (csrRdata : BitVec 32) : BitVec 32 := if s.svWrite then s.svWdata else csrRdata

/-- One edge of `clk` outside reset. -/
def step (s : Servicer) (cmdRdValid : Bool) (cmdRdData : BitVec 41) (csrRdata : BitVec 32)
    (rspWrReady : Bool) : Servicer :=
  match s.sv with
  | .idle =>
    if cmdRdValid then
      let o := CsrOp.unpack cmdRdData
      { s with svWrite := o.write, svAddr := o.addr, svWdata := o.wdata, sv := .exec }
    else s
  | .exec => { s with svResult := s.result csrRdata, sv := .push }
  | .push => if rspWrReady then { s with sv := .idle } else s

theorem step_exec {s : Servicer} (h : s.sv = .exec) (v : Bool) (d : BitVec 41) (r : BitVec 32)
    (w : Bool) : s.step v d r w = { s with svResult := s.result r, sv := .push } := by
  rw [step, h]

end Servicer

/-! ### Both domains -/

/-- `u_cmd_fifo`. -/
def cmdFifoParams : FifoParams where
  width := 41
  depthLog2 := 2
  syncStages := 2
  depthLog2_pos := by decide
  syncStages_pos := by decide

/-- `u_rsp_fifo`. -/
def rspFifoParams : FifoParams where
  width := 32
  depthLog2 := 2
  syncStages := 2
  depthLog2_pos := by decide
  syncStages_pos := by decide

structure Transport (p : Params) where
  drain : Drain p
  cmdFifo : FifoAsync cmdFifoParams
  rspFifo : FifoAsync rspFifoParams
  servicer : Servicer
  capture : Capture p

/-- Edges of the two clocks, the inputs at that moment, and how the pointers that are
sampled while they change are seen. -/
structure TransportEvent (p : Params) where
  xclk : Bool
  clk : Bool
  rxData : Byte
  rxValid : Bool
  txReady : Bool
  probe : BitVec p.probeW
  trigExtI : Bool
  cmdRgraySel : BitVec cmdFifoParams.ptrW
  cmdWgraySel : BitVec cmdFifoParams.ptrW
  rspRgraySel : BitVec rspFifoParams.ptrW
  rspWgraySel : BitVec rspFifoParams.ptrW

namespace Transport

variable {p : Params} (t : Transport p) (e : TransportEvent p)

def drainIn : DrainIn where
  rxData := e.rxData
  rxValid := e.rxValid
  txReady := e.txReady
  cmdReady := t.cmdFifo.wrReady
  rspData := t.rspFifo.rd.rdData
  rspValid := t.rspFifo.rdValid

def cmdEvent : FifoEvent cmdFifoParams where
  wclk := e.xclk
  wrValid := t.drain.cmdValid
  wrData := t.drain.cmdData
  rclk := e.clk
  rdReady := t.servicer.cmdRdReady
  rgraySel := e.cmdRgraySel
  wgraySel := e.cmdWgraySel

def rspEvent : FifoEvent rspFifoParams where
  wclk := e.clk
  wrValid := t.servicer.rspWrValid
  wrData := t.servicer.svResult
  rclk := e.xclk
  rdReady := t.drain.rspReady
  rgraySel := e.rspRgraySel
  wgraySel := e.rspWgraySel

def captureIn : CaptureIn p where
  probe := e.probe
  trigExtI := e.trigExtI
  bus := t.servicer.bus

/-- `csr_rdata`. -/
def csrRdata : BitVec 32 := t.capture.csrRdata (t.captureIn e)

/-- `rst` and `xrst` asserted together. -/
def reset : Transport p where
  drain := t.drain.reset
  cmdFifo := t.cmdFifo.reset
  rspFifo := t.rspFifo.reset
  servicer := .reset
  capture := t.capture.reset

def step : Transport p where
  drain := if e.xclk then t.drain.step (t.drainIn e) else t.drain
  cmdFifo := t.cmdFifo.step (t.cmdEvent e)
  rspFifo := t.rspFifo.step (t.rspEvent e)
  servicer :=
    if e.clk then
      t.servicer.step t.cmdFifo.rdValid t.cmdFifo.rd.rdData (t.csrRdata e) t.rspFifo.wrReady
    else t.servicer
  capture := if e.clk then t.capture.step (t.captureIn e) else t.capture

end Transport

end FpgaScope
