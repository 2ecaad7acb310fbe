import FpgaScope.Rtl.Serial
import FpgaScope.Rtl.Transport

/-! `scope_top` with `XPORT = "UART"`: the UART and its receive FIFO on `xclk` around the frame
engine, the two FIFOs to `clk`, the servicer and the capture domain. -/

namespace FpgaScope

structure UartTop (p : Params) (div : ℕ) where
  uUart : Uart div
  uRxFifo : FifoSync 8 4
  gXport : Transport p

/-- Edges of the two clocks, the pins at that moment, and how the pointers that are sampled
while they change are seen. -/
structure TopEvent (p : Params) where
  xclk : Bool
  clk : Bool
  uartRx : Bool
  probe : BitVec p.probeW
  trigExtI : Bool
  cmdRgraySel : BitVec cmdFifoParams.ptrW
  cmdWgraySel : BitVec cmdFifoParams.ptrW
  rspRgraySel : BitVec rspFifoParams.ptrW
  rspWgraySel : BitVec rspFifoParams.ptrW

namespace UartTop

variable {p : Params} {div : ℕ} (s : UartTop p div) (e : TopEvent p)

def uartIn : UartIn where
  uartRx := e.uartRx
  txData := s.gXport.drain.txData
  txValid := s.gXport.drain.txValid

/-- `wr_ready` is not connected. -/
def rxFifoIn : FifoSyncIn 8 where
  wrData := s.uUart.rx.rxData
  wrValid := s.uUart.rx.rxValid
  rdReady := s.gXport.drain.rxReady

def xportEvent : TransportEvent p where
  xclk := e.xclk
  clk := e.clk
  rxData := s.uRxFifo.rdData
  rxValid := s.uRxFifo.rdValid
  txReady := s.uUart.tx.txReady
  probe := e.probe
  trigExtI := e.trigExtI
  cmdRgraySel := e.cmdRgraySel
  cmdWgraySel := e.cmdWgraySel
  rspRgraySel := e.rspRgraySel
  rspWgraySel := e.rspWgraySel

/-- `rst` and `xrst` asserted together. -/
def reset : UartTop p div where
  uUart := .reset
  uRxFifo := s.uRxFifo.reset
  gXport := s.gXport.reset

def step : UartTop p div where
  uUart := if e.xclk then s.uUart.step (s.uartIn e) else s.uUart
  uRxFifo := if e.xclk then s.uRxFifo.step s.rxFifoIn else s.uRxFifo
  gXport := s.gXport.step (s.xportEvent e)

end UartTop

end FpgaScope
