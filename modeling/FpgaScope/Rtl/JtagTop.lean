import FpgaScope.Rtl.Jtag
import FpgaScope.Rtl.Transport

/-! The second scope of `top_scope`: `u_scope_j` with `XPORT = "STREAM"` behind the byte bridge
`u_jtag`, all on one clock. The Avalon side is the window at 0x800 after its address decode. -/

namespace FpgaScope

structure JtagTop (p : Params) where
  uJtag : Jtag
  uScopeJ : Transport p

/-- Inputs of a cycle, and how the pointers of the two FIFOs are seen in it. -/
structure JtagTopIn (p : Params) where
  avalon : AvalonIn
  scopeProbeQ : BitVec p.probeW
  cmdRgraySel : BitVec cmdFifoParams.ptrW
  cmdWgraySel : BitVec cmdFifoParams.ptrW
  rspRgraySel : BitVec rspFifoParams.ptrW
  rspWgraySel : BitVec rspFifoParams.ptrW

namespace JtagTop

variable {p : Params} (s : JtagTop p) (i : JtagTopIn p)

def jtagIn : JtagIn where
  avalon := i.avalon
  rxReady := s.uScopeJ.drain.rxReady
  txData := s.uScopeJ.drain.txData
  txValid := s.uScopeJ.drain.txValid

/-- Both clocks of `u_scope_j` are `clk`. -/
def scopeEvent : TransportEvent p where
  xclk := true
  clk := true
  rxData := s.uJtag.rxData
  rxValid := s.uJtag.rxValid
  txReady := (s.jtagIn i).txReady
  probe := i.scopeProbeQ
  trigExtI := false
  cmdRgraySel := i.cmdRgraySel
  cmdWgraySel := i.cmdWgraySel
  rspRgraySel := i.rspRgraySel
  rspWgraySel := i.rspWgraySel

def reset : JtagTop p where
  uJtag := .reset
  uScopeJ := s.uScopeJ.reset

/-- One edge of `clk` outside reset. -/
def step : JtagTop p where
  uJtag := s.uJtag.step (s.jtagIn i)
  uScopeJ := s.uScopeJ.step (s.scopeEvent i)

end JtagTop

end FpgaScope
