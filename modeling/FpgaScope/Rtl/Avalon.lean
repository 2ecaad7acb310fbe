import FpgaScope.Rtl.Csr

/-! `scope_avalon`: the Avalon-MM slave in front of the native bus, wires only. -/

namespace FpgaScope

/-- What an Avalon-MM master drives in one cycle. -/
structure AvalonIn where
  address : BitVec 8
  read : Bool
  write : Bool
  writedata : BitVec 32

namespace AvalonIn

variable (a : AvalonIn)

/-- The native bus behind the slave. -/
def bus : CsrBus where
  addr := a.address
  wdata := a.writedata
  write := a.write
  read := a.read

def waitrequest (_ : AvalonIn) : Bool := false

/-- `readdata`, given `csr_rdata` of the cycle. -/
def readdata (_ : AvalonIn) (csrRdata : BitVec 32) : BitVec 32 := csrRdata

end AvalonIn

end FpgaScope
