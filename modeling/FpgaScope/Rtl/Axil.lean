import FpgaScope.Rtl.Capture

/-! `scope_axil`: the AXI4-Lite slave in front of the native bus, one transaction at a time;
and the slave with the capture domain behind it, on one clock. -/

namespace FpgaScope

inductive AxilSt
  | idle | wresp | rresp
  deriving DecidableEq

/-- Registers of `scope_axil`. -/
structure Axil where
  st : AxilSt
  rdataQ : BitVec 32

/-- What an AXI4-Lite master drives in one cycle; `wstrb` is accepted and not enforced. -/
structure AxiMaster where
  awaddr : BitVec 10
  awvalid : Bool
  wdata : BitVec 32
  wstrb : BitVec 4
  wvalid : Bool
  bready : Bool
  araddr : BitVec 10
  arvalid : Bool
  rready : Bool

namespace Axil

abbrev respOkay : BitVec 2 := 0#2

variable (a : Axil) (i : AxiMaster)

def doWrite : Bool := a.st == .idle && i.awvalid && i.wvalid

/-- A write has priority. -/
def doRead : Bool := a.st == .idle && !a.doWrite i && i.arvalid

/-- The native bus. -/
def bus : CsrBus where
  addr := if a.doWrite i then i.awaddr.extractLsb' 2 8 else i.araddr.extractLsb' 2 8
  wdata := i.wdata
  write := a.doWrite i
  read := a.doRead i

def awready : Bool := a.doWrite i

def wready : Bool := a.doWrite i

def arready : Bool := a.doRead i

def bresp (_ : Axil) : BitVec 2 := respOkay

def rresp (_ : Axil) : BitVec 2 := respOkay

def bvalid : Bool := a.st == .wresp

def rvalid : Bool := a.st == .rresp

def rdata : BitVec 32 := a.rdataQ

def reset : Axil where
  st := .idle
  rdataQ := 0

/-- One clock edge outside reset; `csrRdata` is the combinational read of the cycle. -/
def step (csrRdata : BitVec 32) : Axil :=
  match a.st with
  | .idle =>
    if a.doWrite i then { a with st := .wresp }
    else if a.doRead i then { rdataQ := csrRdata, st := .rresp }
    else a
  | .wresp => if i.bready then { a with st := .idle } else a
  | .rresp => if i.rready then { a with st := .idle } else a

end Axil

/-! ### In front of the capture domain -/

structure AxilTop (p : Params) where
  axil : Axil
  capture : Capture p

structure AxilTopIn (p : Params) where
  master : AxiMaster
  probe : BitVec p.probeW
  trigExtI : Bool

namespace AxilTop

variable {p : Params} (t : AxilTop p) (i : AxilTopIn p)

def captureIn : CaptureIn p where
  probe := i.probe
  trigExtI := i.trigExtI
  bus := t.axil.bus i.master

def csrRdata : BitVec 32 := t.capture.csrRdata (t.captureIn i)

def reset : AxilTop p where
  axil := .reset
  capture := t.capture.reset

def step : AxilTop p where
  axil := t.axil.step i.master (t.csrRdata i)
  capture := t.capture.step (t.captureIn i)

end AxilTop

end FpgaScope
