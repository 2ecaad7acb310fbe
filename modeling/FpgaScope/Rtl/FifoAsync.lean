import FpgaScope.Lib.Gray
import Mathlib.Logic.Function.Basic

/-! `prim_ff_sync` and `prim_fifo_async`: the only clock crossings of the design.
A FIFO event says which of the two clocks has an edge; both may have one at the
same time, and then every bit of a pointer that is sampled while it changes is
seen with its old or its new value. -/

namespace FpgaScope

/-! ### `prim_ff_sync` -/

/-- The register chain of a synchronizer, first stage at index 0. -/
structure FfSync (w stages : ℕ) where
  syncQ : Fin stages → BitVec w

namespace FfSync

variable {w stages : ℕ}

/-- The synchronous reset, with `RESET_VAL` zero. -/
def reset : FfSync w stages where
  syncQ := fun _ => 0

/-- The synchronous reset to `RESET_VAL`. -/
def resetTo (v : BitVec w) : FfSync w stages where
  syncQ := fun _ => v

/-- One destination clock edge. -/
def step (s : FfSync w stages) (d : BitVec w) : FfSync w stages where
  syncQ := fun i => if i.val = 0 then d else s.syncQ ⟨i.val - 1, by omega⟩

/-- The synchronized copy: the last stage. -/
def q (s : FfSync w stages) (h : 1 ≤ stages) : BitVec w := s.syncQ ⟨stages - 1, by omega⟩

end FfSync

/-! ### `prim_fifo_async` -/

structure FifoParams where
  width : ℕ
  depthLog2 : ℕ
  syncStages : ℕ
  depthLog2_pos : 1 ≤ depthLog2
  syncStages_pos : 1 ≤ syncStages

/-- Pointer width: one bit more than a RAM address. -/
abbrev FifoParams.ptrW (p : FifoParams) : ℕ := p.depthLog2 + 1

def FifoParams.depth (p : FifoParams) : ℕ := 2 ^ p.depthLog2

/-- Inverts the top two bits of a gray pointer. -/
def FifoParams.top2Mask (p : FifoParams) : BitVec p.ptrW := BitVec.ofNat p.ptrW (3 <<< (p.ptrW - 2))

/-- Registers of the write domain. -/
structure FifoWr (p : FifoParams) where
  wbin : BitVec p.ptrW
  wgray : BitVec p.ptrW
  wqRgray : FfSync p.ptrW p.syncStages
  wfull : Bool

/-- Registers of the read domain. -/
structure FifoRd (p : FifoParams) where
  rbin : BitVec p.ptrW
  rgray : BitVec p.ptrW
  rqWgray : FfSync p.ptrW p.syncStages
  ramEmpty : Bool
  outVld : Bool
  rdData : BitVec p.width

structure FifoAsync (p : FifoParams) where
  wr : FifoWr p
  rd : FifoRd p
  mem : BitVec p.depthLog2 → BitVec p.width

/-- Clock edges at one instant with the inputs of each domain. `rgraySel` and
`wgraySel` pick, bit by bit, the new value of a pointer that changes at the
instant it is sampled. -/
structure FifoEvent (p : FifoParams) where
  wclk : Bool
  wrValid : Bool
  wrData : BitVec p.width
  rclk : Bool
  rdReady : Bool
  rgraySel : BitVec p.ptrW
  wgraySel : BitVec p.ptrW

namespace FifoAsync

variable {p : FifoParams}

/-- The state after `wrst` and `rrst` were asserted together. -/
def reset (f : FifoAsync p) : FifoAsync p where
  wr := { wbin := 0, wgray := 0, wqRgray := .reset, wfull := true }
  rd := { f.rd with rbin := 0, rgray := 0, rqWgray := .reset, ramEmpty := true, outVld := false }
  mem := f.mem

/-! Write domain -/

def wrReady (f : FifoAsync p) : Bool := !f.wr.wfull

def push (f : FifoAsync p) (wrValid : Bool) : Bool := wrValid && f.wrReady

def wbinNext (f : FifoAsync p) (wrValid : Bool) : BitVec p.ptrW :=
  f.wr.wbin + (BitVec.ofBool (f.push wrValid)).setWidth p.ptrW

def wgrayNext (f : FifoAsync p) (wrValid : Bool) : BitVec p.ptrW := gray (f.wbinNext wrValid)

/-- A `wclk` edge; `d` is the read pointer as sampled. -/
def wrStep (f : FifoAsync p) (wrValid : Bool) (d : BitVec p.ptrW) : FifoWr p where
  wbin := f.wbinNext wrValid
  wgray := f.wgrayNext wrValid
  wqRgray := f.wr.wqRgray.step d
  wfull := f.wgrayNext wrValid == (f.wr.wqRgray.q p.syncStages_pos ^^^ p.top2Mask)

/-! Read domain -/

def rdValid (f : FifoAsync p) : Bool := f.rd.outVld

def pop (f : FifoAsync p) (rdReady : Bool) : Bool := f.rdValid && rdReady

/-- Prefetch into the output register when it is empty or being popped. -/
def rdIssue (f : FifoAsync p) (rdReady : Bool) : Bool :=
  !f.rd.ramEmpty && (!f.rd.outVld || f.pop rdReady)

def rbinNext (f : FifoAsync p) (rdReady : Bool) : BitVec p.ptrW :=
  f.rd.rbin + (BitVec.ofBool (f.rdIssue rdReady)).setWidth p.ptrW

def rgrayNext (f : FifoAsync p) (rdReady : Bool) : BitVec p.ptrW := gray (f.rbinNext rdReady)

/-- An `rclk` edge; `d` is the write pointer as sampled. -/
def rdStep (f : FifoAsync p) (rdReady : Bool) (d : BitVec p.ptrW) : FifoRd p where
  rbin := f.rbinNext rdReady
  rgray := f.rgrayNext rdReady
  rqWgray := f.rd.rqWgray.step d
  ramEmpty := f.rgrayNext rdReady == f.rd.rqWgray.q p.syncStages_pos
  outVld := if f.rdIssue rdReady then true else if f.pop rdReady then false else f.rd.outVld
  rdData := if f.rdIssue rdReady then f.mem (f.rd.rbin.setWidth p.depthLog2) else f.rd.rdData

/-! Both domains -/

/-- The word pushed at an event, if any. -/
def pushedWord (f : FifoAsync p) (e : FifoEvent p) : Option (BitVec p.width) :=
  if e.wclk && f.push e.wrValid then some e.wrData else none

/-- The word popped at an event, if any. -/
def poppedWord (f : FifoAsync p) (e : FifoEvent p) : Option (BitVec p.width) :=
  if e.rclk && f.pop e.rdReady then some f.rd.rdData else none

def wgrayAfter (f : FifoAsync p) (e : FifoEvent p) : BitVec p.ptrW :=
  if e.wclk then f.wgrayNext e.wrValid else f.wr.wgray

def rgrayAfter (f : FifoAsync p) (e : FifoEvent p) : BitVec p.ptrW :=
  if e.rclk then f.rgrayNext e.rdReady else f.rd.rgray

/-- One event: the edges of either or both clocks. -/
def step (f : FifoAsync p) (e : FifoEvent p) : FifoAsync p where
  wr := if e.wclk then f.wrStep e.wrValid (resolve f.rd.rgray (f.rgrayAfter e) e.rgraySel) else f.wr
  rd := if e.rclk then f.rdStep e.rdReady (resolve f.wr.wgray (f.wgrayAfter e) e.wgraySel) else f.rd
  mem := if e.wclk && f.push e.wrValid then
    Function.update f.mem (f.wr.wbin.setWidth p.depthLog2) e.wrData else f.mem

end FifoAsync

end FpgaScope
