import FpgaScope.Rtl.Pkg

/-! `scope_rle`: the run-length encoder in front of the core. At most one word a
cycle leaves it; the second word of a value change waits in a one-deep skid. The
`flush` port is tied low in `scope_top`, so its branch is never taken there; it is
kept as an input. -/

namespace FpgaScope

/-- Registers of `scope_rle`: run state and skid. -/
structure Rle (W L : ℕ) where
  havePrev : Bool
  prev : BitVec W
  acc : BitVec L
  pendValid : Bool
  pendWord : BitVec (W + 1)
  pendTrig : Bool

structure RleIn (W : ℕ) where
  enable : Bool
  inData : BitVec W
  inValid : Bool
  flush : Bool
  trigIn : Bool

/-- What one cycle produces: up to two words with their trigger tags, and the next
run state. -/
structure RleProd (W L : ℕ) where
  prod0 : Bool
  prod1 : Bool
  w0 : BitVec (W + 1)
  w1 : BitVec (W + 1)
  t0 : Bool
  t1 : Bool
  accN : BitVec L
  haveN : Bool
  prevN : BitVec W

namespace Rle

variable {W L : ℕ}

def dataWord (v : BitVec W) : BitVec (W + 1) := BitVec.cons false v

/-- `{1'b1, {(PROBE_W-CNT_W){1'b0}}, n}`. -/
def countWord (W : ℕ) (n : BitVec L) : BitVec (W + 1) := BitVec.cons true (n.setWidth W)

def maxRun (L : ℕ) : BitVec L := BitVec.allOnes L

/-- The combinational word production. -/
def produce (r : Rle W L) (i : RleIn W) : RleProd W L :=
  let d : RleProd W L :=
    { prod0 := false, prod1 := false, w0 := 0, w1 := 0, t0 := false, t1 := false
      accN := r.acc, haveN := r.havePrev, prevN := r.prev }
  if i.enable then
    if i.inValid then
      if !r.havePrev then
        { d with
          prod0 := true, w0 := dataWord i.inData, t0 := i.trigIn
          haveN := true, prevN := i.inData, accN := 0 }
      else if i.inData == r.prev && !i.trigIn then
        if r.acc == maxRun L - 1 then { d with prod0 := true, w0 := countWord W (maxRun L), accN := 0 }
        else { d with accN := r.acc + 1 }
      else
        let d := { d with prevN := i.inData, accN := 0 }
        if r.acc != 0 then
          { d with
            prod0 := true, w0 := countWord W r.acc
            prod1 := true, w1 := dataWord i.inData, t1 := i.trigIn }
        else { d with prod0 := true, w0 := dataWord i.inData, t0 := i.trigIn }
    else if i.flush then
      if r.acc != 0 then { d with prod0 := true, w0 := countWord W r.acc, accN := 0 } else d
    else d
  else if i.inValid then { d with prod0 := true, w0 := dataWord i.inData, t0 := i.trigIn }
  else d

/-- Output arbitration: the skid has priority. -/
def word (r : Rle W L) (i : RleIn W) : BitVec (W + 1) :=
  if r.pendValid then r.pendWord else if (r.produce i).prod0 then (r.produce i).w0 else 0

def wordValid (r : Rle W L) (i : RleIn W) : Bool := r.pendValid || (r.produce i).prod0

def trigOut (r : Rle W L) (i : RleIn W) : Bool :=
  if r.pendValid then r.pendTrig else (r.produce i).prod0 && (r.produce i).t0

def reset : Rle W L where
  havePrev := false
  prev := 0
  acc := 0
  pendValid := false
  pendWord := 0
  pendTrig := false

/-- One clock edge outside reset. -/
def step (r : Rle W L) (i : RleIn W) : Rle W L :=
  let p := r.produce i
  let d : Rle W L := { r with havePrev := p.haveN, prev := p.prevN, acc := p.accN }
  if r.pendValid then { d with pendValid := p.prod0, pendWord := p.w0, pendTrig := p.t0 }
  else if p.prod1 then { d with pendValid := true, pendWord := p.w1, pendTrig := p.t1 }
  else { d with pendValid := false }

end Rle

end FpgaScope
