import FpgaScope.Rtl.Pkg
import FpgaScope.Rtl.Ram

/-! `scope_core`: the circular capture buffer, the window FSM and the window
slicing. `step` is the clocked process; the combinational wires are functions of
the registers and the inputs of the cycle. Where the source assigns a register
twice in one branch the later assignment wins, so the FSM part is applied on top
of the datapath part. -/

namespace FpgaScope

/-- The ports of `scope_core` that drive it, sampled in one cycle. -/
structure CoreIn (W L : ℕ) where
  sampleData : BitVec W
  sampleValid : Bool
  trig : Bool
  arm : Bool
  disarm : Bool
  pretrig : BitVec L
  windows : BitVec 8
  rdAddr : BitVec L
  winRdAddr : BitVec 8

/-- The registers and memories of `scope_core`. -/
structure Core (W L T : ℕ) where
  st : ScopeState
  offset : BitVec L
  base : BitVec L
  sliceMask : BitVec L
  weffLog2Q : BitVec 4
  winIdx : BitVec 8
  windowsQ : BitVec 8
  fillCnt : BitVec L
  postRemaining : BitVec (L + 1)
  triggered : Bool
  wrapped : Bool
  windowsDone : BitVec 8
  trigIndex : BitVec L
  ts : BitVec T
  tsAtTrig : BitVec T
  uBuf : Ram W L
  uWinMeta : Ram (L + 1) 8

namespace Core

variable {W L T : ℕ}

/-- `weff_log2_of`: `ceil(log2(max(w,1)))`, clamped so that a slice keeps two
samples. -/
def weffLog2Of (L : ℕ) (w : BitVec 8) : BitVec 4 :=
  let r := (List.range 8).foldl
    (fun acc i => if w.toNat > 2 ^ i then BitVec.ofNat 4 (i + 1) else acc) 0#4
  if r > BitVec.ofNat 4 (L - 1) then BitVec.ofNat 4 (L - 1) else r

/-- `slice_mask` as latched at arm: `(DEPTH-1) >> weff_log2_of(windows)`. -/
def sliceMaskOf (L : ℕ) (w : BitVec 8) : BitVec L :=
  BitVec.ofNat L ((2 ^ L - 1) >>> (weffLog2Of L w).toNat)

/-! ### Combinational wires -/

def wrAddrW (c : Core W L T) : BitVec L := c.base ||| c.offset

def pretrigEff (c : Core W L T) (i : CoreIn W L) : BitVec L := i.pretrig >>> c.weffLog2Q

def captureWr (c : Core W L T) (i : CoreIn W L) : Bool :=
  i.sampleValid && (c.st == .filling || c.st == .armed ||
    (c.st == .triggered && c.postRemaining != 0))

def trigAccept (c : Core W L T) (i : CoreIn W L) : Bool :=
  i.trig && i.sampleValid && c.st == .armed

def fillWr (c : Core W L T) (i : CoreIn W L) : Bool := captureWr c i && c.st == .filling

def postWr (c : Core W L T) (i : CoreIn W L) : Bool := captureWr c i && c.st == .triggered

def fillNext (c : Core W L T) (i : CoreIn W L) : BitVec (L + 1) :=
  c.fillCnt.setWidth (L + 1) + (BitVec.ofBool (fillWr c i)).setWidth (L + 1)

def postNext (c : Core W L T) (i : CoreIn W L) : BitVec (L + 1) :=
  c.postRemaining - (BitVec.ofBool (postWr c i)).setWidth (L + 1)

def wrappedNext (c : Core W L T) (i : CoreIn W L) : Bool :=
  c.wrapped || (captureWr c i && c.offset == c.sliceMask)

def windowDoneNow (c : Core W L T) (i : CoreIn W L) : Bool :=
  c.st == .triggered && postNext c i == 0

/-! ### Clocked process -/

/-- The `rst` branch. The memories and their read registers have no reset. -/
def reset (c : Core W L T) : Core W L T :=
  { c with
    st := .idle, offset := 0, base := 0, sliceMask := BitVec.allOnes L, weffLog2Q := 0
    winIdx := 0, windowsQ := 1, fillCnt := 0, postRemaining := 0, triggered := false
    wrapped := false, windowsDone := 0, trigIndex := 0, ts := 0, tsAtTrig := 0 }

/-- The assignments made in every state, and the two memories. -/
def datapath (c : Core W L T) (i : CoreIn W L) : Core W L T :=
  { c with
    ts := c.ts + 1
    offset := if captureWr c i then (c.offset + 1) &&& c.sliceMask else c.offset
    wrapped := if captureWr c i then wrappedNext c i else c.wrapped
    fillCnt := if fillWr c i then c.fillCnt + 1 else c.fillCnt
    -- the trigger sample is post sample number one
    postRemaining :=
      if trigAccept c i then c.sliceMask.setWidth (L + 1) - (pretrigEff c i).setWidth (L + 1)
      else if postWr c i then postNext c i else c.postRemaining
    trigIndex := if trigAccept c i then wrAddrW c else c.trigIndex
    tsAtTrig := if trigAccept c i then c.ts else c.tsAtTrig
    triggered := if trigAccept c i then true else c.triggered
    uBuf := c.uBuf.step (captureWr c i) (wrAddrW c) i.sampleData true i.rdAddr
    uWinMeta := c.uWinMeta.step (windowDoneNow c i && !i.disarm) c.winIdx
      (BitVec.cons (wrappedNext c i) c.trigIndex) true i.winRdAddr }

/-- A fresh capture run, from `IDLE` or from a parked `DONE`. -/
def startRun (c : Core W L T) (i : CoreIn W L) : Core W L T :=
  { c with
    st := .filling, offset := 0, base := 0, winIdx := 0, windowsQ := i.windows
    weffLog2Q := weffLog2Of L i.windows, sliceMask := sliceMaskOf L i.windows
    fillCnt := 0, triggered := false, wrapped := false, windowsDone := 0 }

/-- Auto re-arm into the next slice. -/
def nextWindow (c : Core W L T) : Core W L T :=
  { c with
    st := .filling, offset := 0, base := c.base + c.sliceMask + 1, winIdx := c.winIdx + 1
    fillCnt := 0, triggered := false, wrapped := false }

/-- The FSM part of the clocked process, applied to the datapath's result `d`. -/
def control (c : Core W L T) (i : CoreIn W L) (d : Core W L T) : Core W L T :=
  if i.disarm then { d with st := .idle }
  else match c.st with
    | .idle => if i.arm then startRun d i else d
    | .filling =>
      if (pretrigEff c i).setWidth (L + 1) ≤ fillNext c i then { d with st := .armed } else d
    | .armed => if trigAccept c i then { d with st := .triggered } else d
    | .triggered =>
      if postNext c i = 0 then { d with st := .done, windowsDone := c.windowsDone + 1 } else d
    | .done =>
      if i.arm then startRun d i
      else if c.windowsDone < c.windowsQ then nextWindow d
      else d

/-- One clock edge of `scope_core` outside reset. -/
def step (c : Core W L T) (i : CoreIn W L) : Core W L T := control c i (datapath c i)

end Core

end FpgaScope
