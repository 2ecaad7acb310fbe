import FpgaScope.Rtl.Ram

/-! `prim_fifo_sync`: a FIFO on one clock. The read latency of the RAM is hidden behind
its read register, the output stage, which counts towards the capacity. -/

namespace FpgaScope

/-- Registers and RAM of a `2^a`-entry FIFO of `w`-bit words; `ram.rdData` is the output
stage. -/
structure FifoSync (w a : ℕ) where
  waddr : BitVec a
  raddr : BitVec a
  cnt : BitVec (a + 1)
  ramCnt : BitVec (a + 1)
  outVld : Bool
  ram : Ram w a

structure FifoSyncIn (w : ℕ) where
  wrData : BitVec w
  wrValid : Bool
  rdReady : Bool

namespace FifoSync

variable {w a : ℕ} (f : FifoSync w a) (i : FifoSyncIn w)

def wrReady : Bool := f.cnt != BitVec.ofNat (a + 1) (1 <<< a)

def rdValid : Bool := f.outVld

def rdData : BitVec w := f.ram.rdData

def push : Bool := i.wrValid && f.wrReady

def pop : Bool := f.rdValid && i.rdReady

/-- Prefetch into the output stage when it is empty or being popped. -/
def rdIssue : Bool := f.ramCnt != 0 && (!f.outVld || f.pop i)

/-- The `rst` branch; the RAM has no reset. -/
def reset : FifoSync w a :=
  { f with waddr := 0, raddr := 0, cnt := 0, ramCnt := 0, outVld := false }

/-- One clock edge outside reset. -/
def step : FifoSync w a where
  waddr := if f.push i then f.waddr + 1 else f.waddr
  raddr := if f.rdIssue i then f.raddr + 1 else f.raddr
  cnt := f.cnt + (BitVec.ofBool (f.push i)).setWidth (a + 1) - (BitVec.ofBool (f.pop i)).setWidth (a + 1)
  ramCnt := f.ramCnt + (BitVec.ofBool (f.push i)).setWidth (a + 1) -
    (BitVec.ofBool (f.rdIssue i)).setWidth (a + 1)
  outVld := if f.rdIssue i then true else if f.pop i then false else f.outVld
  ram := f.ram.step (f.push i) f.waddr i.wrData (f.rdIssue i) f.raddr

/-- The word pushed in a cycle, if any. -/
def pushedWord : Option (BitVec w) := if f.push i then some i.wrData else none

/-- The word popped in a cycle, if any. -/
def poppedWord : Option (BitVec w) := if f.pop i then some f.rdData else none

end FifoSync

end FpgaScope
