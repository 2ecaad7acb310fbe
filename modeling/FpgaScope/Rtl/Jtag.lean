import FpgaScope.Rtl.Avalon

/-! `scope_jtag`: three registers on an Avalon-MM slave in front of the byte stream of
`scope_top`. Host bytes wait in a buffer of one place; scope bytes are read straight off the
stream, and the read takes them. -/

namespace FpgaScope

/-- The one-deep buffer from host to scope. -/
structure Jtag where
  txbValid : Bool
  txbData : Byte

/-- Both sides of the bridge in one cycle. -/
structure JtagIn where
  avalon : AvalonIn
  rxReady : Bool
  txData : Byte
  txValid : Bool

abbrev regTxdata : BitVec 8 := 0#8
abbrev regRxdata : BitVec 8 := 1#8
abbrev regStatus : BitVec 8 := 2#8

namespace JtagIn

variable (i : JtagIn)

def wrTx : Bool := i.avalon.write && i.avalon.address == regTxdata

def rdRx : Bool := i.avalon.read && i.avalon.address == regRxdata

def rdStatus : Bool := i.avalon.read && i.avalon.address == regStatus

/-- A read of `RXDATA` pops the stream of the scope. -/
def txReady : Bool := i.rdRx && i.txValid

end JtagIn

namespace Jtag

variable (b : Jtag) (i : JtagIn)

def rxData : Byte := b.txbData

def rxValid : Bool := b.txbValid

def readdata : BitVec 32 :=
  if i.avalon.address == regRxdata then 0#23 ++ BitVec.ofBool i.txValid ++ i.txData
  else if i.avalon.address == regStatus then 0#30 ++ BitVec.ofBool (!b.txbValid) ++ BitVec.ofBool i.txValid
  else 0

def reset : Jtag where
  txbValid := false
  txbData := 0

/-- One clock edge outside reset. -/
def step : Jtag where
  txbValid := if i.wrTx && !b.txbValid then true
    else if i.rxReady && b.txbValid then false
    else b.txbValid
  txbData := if i.wrTx && !b.txbValid then i.avalon.writedata.setWidth 8 else b.txbData

end Jtag

end FpgaScope
