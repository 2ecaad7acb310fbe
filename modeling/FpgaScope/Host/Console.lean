import FpgaScope.Host.Vcd
import FpgaScope.Lib.Script

/-! `scope_capture.tcl`: the System Console script that arms the scope on the falling edge of
`cs_n`, kicks the HyperRAM until the capture is done, and writes the buffer to a text file. It
reads and writes single registers through a JTAG-to-Avalon master, by byte address. What it
prints on the console is left out. -/

namespace FpgaScope.Console

open Clocked Host

/-! ### Byte addresses -/

def sId : BitVec 32 := 0x400
def sHwcfg : BitVec 32 := 0x404
def sCtrl : BitVec 32 := 0x408
def sStatus : BitVec 32 := 0x40C
def sPretrig : BitVec 32 := 0x410
def sWindows : BitVec 32 := 0x414
def sRleCtrl : BitVec 32 := 0x418
def sTrigIdx : BitVec 32 := 0x424
def sTstrigLo : BitVec 32 := 0x428
def sTstrigHi : BitVec 32 := 0x42C
def sCmpSel : BitVec 32 := 0x43C
def sCmpLane0 : BitVec 32 := 0x440
def sCombine : BitVec 32 := 0x500
def sSeq0 : BitVec 32 := 0x504
def sBufCtrl : BitVec 32 := 0x580
def sBufData : BitVec 32 := 0x584

def stateArmed : ℕ := 2
def stateDone : ℕ := 4

def bwCtrl : BitVec 32 := 0x00
def bwLen : BitVec 32 := 0x04
def bwBase : BitVec 32 := 0x08

/-! ### The script -/

/-- Accesses of the console, by byte address. -/
abbrev Cmd (R : Type) := Script (BitVec 32) (BitVec 32) R

/-- `rd32`. -/
def rd32 (addr : BitVec 32) : Cmd ℕ := .read addr fun d => .done d.toNat

def wr32 (addr data : BitVec 32) : Cmd Unit := .write addr data (.done ())

def wrAll : List (BitVec 32 × BitVec 32) → Cmd Unit
  | [] => pure ()
  | w :: ws => do
    wr32 w.1 w.2
    wrAll ws

/-- The configuration: comparator 0 on the falling edge of probe bit 0, one window. -/
def setup (pretrig : ℤ) : List (BitVec 32 × BitVec 32) :=
  [(sPretrig, BitVec.ofInt 32 pretrig), (sWindows, 1), (sRleCtrl, 1), (sCmpSel, (2 <<< 2) ||| 0),
    (sCmpLane0, 1), (sCmpSel, (3 <<< 2) ||| 0), (sCmpLane0, 0), (sCombine, 1), (sSeq0, 1)]

/-- One transaction of `hyperram_bw_test`. -/
def burst (len : ℤ) : List (BitVec 32 × BitVec 32) := [(bwLen, BitVec.ofInt 32 len), (bwBase, 0), (bwCtrl, 1)]

/-- The wait for `ARMED`; the script goes on without it too. -/
def waitArmed : ℕ → Cmd Unit
  | 0 => pure ()
  | i + 1 => do
    let st ← rd32 sStatus
    if st &&& 0x7 = stateArmed then pure ()
    else if st &&& 0x7 = stateDone then pure ()
    else waitArmed i

/-- The bursts; the last `STATUS` word and `done`. -/
def pulse (len : ℤ) : ℕ → ℕ → Cmd (ℕ × Bool)
  | 0, st => pure (st, false)
  | i + 1, _ => do
    let st ← rd32 sStatus
    if st &&& 0x7 = stateDone then pure (st, true)
    else do
      wrAll (burst len)
      pulse len i st

/-- The poll for `DONE`. -/
def pollDone : ℕ → ℕ × Bool → Cmd (ℕ × Bool)
  | 0, x => pure x
  | i + 1, (st, done) =>
    if done then pure (st, done)
    else do
      let st ← rd32 sStatus
      if st &&& 0x7 = stateDone then pure (st, true)
      else pollDone i (st, false)

/-- The words of the buffer, two lanes each. -/
def drain : ℕ → Cmd (List ℕ)
  | 0 => pure []
  | i + 1 => do
    let lane0 ← rd32 sBufData
    let lane1 ← rd32 sBufData
    let words ← drain i
    pure ((lane0 ||| (lane1 &&& 0x1) <<< 32) :: words)

/-- What the script reads before it drains. -/
structure Header where
  rle : ℕ
  wrapped : ℕ
  trigIndex : ℕ
  pretrig : ℤ
  depth : ℕ
  tsAtTrig : ℕ
  deriving DecidableEq

/-- `%d`. -/
def decimal (z : ℤ) : Text :=
  if z < 0 then '-' :: Nat.toDigits 10 z.natAbs else Nat.toDigits 10 z.natAbs

def field (key : String) (z : ℤ) : Text := key.toList ++ ' ' :: decimal z

/-- The file. -/
def dumpText (h : Header) (words : List ℕ) : Text :=
  unlines (["# fpga-scope AXC3000 capture (CSR-over-JTAG)".toList, field "probe_w" 32, field "store_w" 33,
    field "rle" h.rle, field "wrapped" h.wrapped, field "trig_index" h.trigIndex, field "pretrig" h.pretrig,
    field "depth" h.depth, field "ts_at_trig" h.tsAtTrig,
    "# words: one STORE_W value per line, buffer (address) order".toList] ++
    words.map fun word : ℕ => decimal word)

inductive Outcome
  /-- "scope ID mismatch" -/
  | mismatch
  /-- "scope never reached DONE", with the last `STATUS` word -/
  | never (st : ℕ)
  | dumped (text : Text)
  deriving DecidableEq

/-- From `DONE` on, with the `STATUS` word that showed it. -/
def dump (pretrig : ℤ) (hwcfg depth st : ℕ) : Cmd Outcome := do
  let trigIdx ← rd32 sTrigIdx
  let tsLo ← rd32 sTstrigLo
  let tsHi ← rd32 sTstrigHi
  wr32 sBufCtrl 0x1
  let words ← drain depth
  pure (.dumped (dumpText
    { rle := (hwcfg >>> 18) &&& 1, wrapped := (st >>> 4) &&& 1, trigIndex := trigIdx, pretrig := pretrig,
      depth := depth, tsAtTrig := tsHi <<< 32 ||| tsLo } words))

/-- The script with its arguments. -/
def scopeCapture (pretrig len : ℤ) : Cmd Outcome := do
  let id ← rd32 sId
  if id ≠ 0x5C09E001 then pure .mismatch
  else do
    let hwcfg ← rd32 sHwcfg
    let depth := 1 <<< ((hwcfg >>> 10) &&& 0xf)
    wr32 sCtrl 0x8
    wrAll (setup pretrig)
    let _ ← rd32 sStatus
    wrAll (burst len)
    wr32 sCtrl 0x1
    waitArmed 100000
    let x ← pulse len 64 0
    let (st, done) ← pollDone 200000 x
    if done then dump pretrig hwcfg depth st else pure (.never st)

end FpgaScope.Console
