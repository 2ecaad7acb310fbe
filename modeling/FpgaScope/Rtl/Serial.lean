import FpgaScope.Rtl.Drain
import FpgaScope.Rtl.FifoSync
import FpgaScope.Rtl.Uart

/-! The transport clock of `scope_top` with `XPORT = "UART"`: the frame engine between the two
halves of the UART, with a FIFO of sixteen bytes behind the receiver. There is no flow control
on the line, so a byte that finds the FIFO full is dropped. The two FIFOs to the capture domain
are inputs here. -/

namespace FpgaScope

structure Serial (p : Params) (div : ℕ) where
  uUart : Uart div
  uRxFifo : FifoSync 8 4
  uDrain : Drain p

/-- Inputs at one edge of `xclk`. -/
structure SerialIn where
  uartRx : Bool
  cmdWrReady : Bool
  rspRdData : BitVec 32
  rspRdValid : Bool

namespace Serial

variable {p : Params} {div : ℕ} (s : Serial p div) (i : SerialIn)

def drainIn : DrainIn where
  rxData := s.uRxFifo.rdData
  rxValid := s.uRxFifo.rdValid
  txReady := s.uUart.tx.txReady
  cmdReady := i.cmdWrReady
  rspData := i.rspRdData
  rspValid := i.rspRdValid

/-- `wr_ready` is not connected. -/
def fifoIn : FifoSyncIn 8 where
  wrData := s.uUart.rx.rxData
  wrValid := s.uUart.rx.rxValid
  rdReady := s.uDrain.rxReady

def uartIn : UartIn where
  uartRx := i.uartRx
  txData := s.uDrain.txData
  txValid := s.uDrain.txValid

def reset : Serial p div where
  uUart := .reset
  uRxFifo := s.uRxFifo.reset
  uDrain := s.uDrain.reset

/-- One edge of `xclk` outside reset. -/
def step : Serial p div where
  uUart := s.uUart.step (s.uartIn i)
  uRxFifo := s.uRxFifo.step s.fifoIn
  uDrain := s.uDrain.step (s.drainIn i)

end Serial

end FpgaScope
