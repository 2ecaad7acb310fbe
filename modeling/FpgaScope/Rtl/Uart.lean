import FpgaScope.Rtl.FifoAsync
import FpgaScope.Rtl.Pkg

/-! `scope_uart`: an 8N1 transmitter and receiver with a fixed divisor, least significant bit
first. Each counts clock cycles on its own; the receiver sees the line through a synchronizer
and samples it once a bit, in the middle. -/

namespace FpgaScope

namespace Uart

/-- `CNT_W`: wide enough for a count of `DIV`. -/
def cntW (div : ℕ) : ℕ := if div ≤ 2 then 2 else Nat.clog 2 div + 1

end Uart

/-! ### Transmitter -/

/-- Registers of the transmitter; `txShift` is `{stop, data, start}`. -/
structure UartTx (div : ℕ) where
  txShift : BitVec 10
  txBits : BitVec 4
  txCnt : BitVec (Uart.cntW div)
  uartTx : Bool

namespace UartTx

variable {div : ℕ} (u : UartTx div)

def txReady : Bool := u.txBits == 0

def reset : UartTx div where
  txShift := BitVec.allOnes 10
  txBits := 0
  txCnt := 0
  uartTx := true

def step (txData : Byte) (txValid : Bool) : UartTx div :=
  if u.txBits = 0 then
    if txValid then
      { txShift := 1#1 ++ txData ++ 0#1
        txBits := 10
        txCnt := BitVec.ofNat _ (div - 1)
        uartTx := false }
    else { u with uartTx := true }
  else if u.txCnt ≠ 0 then { u with txCnt := u.txCnt - 1 }
  else if u.txBits ≠ 1 then
    { txShift := 1#1 ++ u.txShift.extractLsb' 1 9
      txBits := u.txBits - 1
      txCnt := BitVec.ofNat _ (div - 1)
      uartTx := u.txShift.getLsbD 1 }
  else { u with txBits := u.txBits - 1, uartTx := true }

end UartTx

/-! ### Receiver -/

inductive RxSt
  | idle | start | bits | stop
  deriving DecidableEq

structure UartRx (div : ℕ) where
  uRxSync : FfSync 1 2
  rxSt : RxSt
  rxCnt : BitVec (Uart.cntW div)
  rxBit : BitVec 3
  rxShift : Byte
  rxData : Byte
  rxValid : Bool

namespace UartRx

variable {div : ℕ} (u : UartRx div)

def rxSync : Bool := (u.uRxSync.q (Nat.le_succ 1)).getLsbD 0

/-- The synchronizer resets to the idle line. -/
def reset : UartRx div where
  uRxSync := .resetTo 1
  rxSt := .idle
  rxCnt := 0
  rxBit := 0
  rxShift := 0
  rxData := 0
  rxValid := false

/-- The registers after an edge, but for the synchronizer. A stop bit sampled low drops the
byte. -/
def advance : UartRx div :=
  match u.rxSt with
  | .idle =>
    if !u.rxSync then { u with rxValid := false, rxSt := .start, rxCnt := BitVec.ofNat _ (div / 2) }
    else { u with rxValid := false }
  | .start =>
    if u.rxCnt ≠ 0 then { u with rxValid := false, rxCnt := u.rxCnt - 1 }
    else if !u.rxSync then
      { u with rxValid := false, rxSt := .bits, rxCnt := BitVec.ofNat _ (div - 1), rxBit := 0 }
    else { u with rxValid := false, rxSt := .idle }
  | .bits =>
    if u.rxCnt ≠ 0 then { u with rxValid := false, rxCnt := u.rxCnt - 1 }
    else
      { u with
        rxValid := false
        rxShift := BitVec.ofBool u.rxSync ++ u.rxShift.extractLsb' 1 7
        rxCnt := BitVec.ofNat _ (div - 1)
        rxSt := if u.rxBit = 7 then .stop else .bits
        rxBit := if u.rxBit = 7 then u.rxBit else u.rxBit + 1 }
  | .stop =>
    if u.rxCnt ≠ 0 then { u with rxValid := false, rxCnt := u.rxCnt - 1 }
    else
      { u with
        rxData := if u.rxSync then u.rxShift else u.rxData
        rxValid := u.rxSync
        rxSt := .idle }

def step (uartRx : Bool) : UartRx div :=
  { u.advance with uRxSync := u.uRxSync.step (BitVec.ofBool uartRx) }

end UartRx

/-! ### Both halves -/

structure Uart (div : ℕ) where
  tx : UartTx div
  rx : UartRx div

structure UartIn where
  uartRx : Bool
  txData : Byte
  txValid : Bool

namespace Uart

variable {div : ℕ} (u : Uart div) (i : UartIn)

def reset : Uart div where
  tx := .reset
  rx := .reset

/-- One clock edge outside reset. -/
def step : Uart div where
  tx := u.tx.step i.txData i.txValid
  rx := u.rx.step i.uartRx

/-- The byte accepted for transmission. -/
def accepted : Option Byte := if i.txValid && u.tx.txReady then some i.txData else none

/-- The byte signalled by `rx_valid`. -/
def received : Option Byte := if u.rx.rxValid then some u.rx.rxData else none

end Uart

/-- Two UARTs on one clock, the `uart_tx` of the first wired to the `uart_rx` of the second. -/
structure UartLink (div : ℕ) where
  near : Uart div
  far : Uart div

/-- The other inputs: the line into the first, and the bytes to send on both sides. -/
structure UartLinkIn where
  near : UartIn
  farData : Byte
  farValid : Bool

namespace UartLink

variable {div : ℕ} (l : UartLink div) (i : UartLinkIn)

def reset : UartLink div where
  near := .reset
  far := .reset

def step : UartLink div where
  near := l.near.step i.near
  far := l.far.step { uartRx := l.near.tx.uartTx, txData := i.farData, txValid := i.farValid }

end UartLink

end FpgaScope
