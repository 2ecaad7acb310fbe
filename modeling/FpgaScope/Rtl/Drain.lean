import FpgaScope.Rtl.Csr

/-! `scope_drain`: the frame engine of the transport domain. It parses request frames,
issues CSR operations one at a time and emits response frames byte by byte. The registers
are grouped as the source declares them. -/

namespace FpgaScope

/-- A native CSR operation: `cmd_data` is `{c_write, c_addr, c_wdata}`. -/
@[ext] structure CsrOp where
  write : Bool
  addr : BitVec 8
  wdata : BitVec 32
  deriving DecidableEq

namespace CsrOp

def rd (addr : BitVec 8) : CsrOp := { write := false, addr := addr, wdata := 0 }

def wr (addr : BitVec 8) (wdata : BitVec 32) : CsrOp := { write := true, addr := addr, wdata := wdata }

def pack (o : CsrOp) : BitVec 41 := BitVec.ofBool o.write ++ o.addr ++ o.wdata

def unpack (x : BitVec 41) : CsrOp where
  write := x.getLsbD 40
  addr := x.extractLsb' 32 8
  wdata := x.setWidth 32

end CsrOp

namespace Params

variable (p : Params)

def depth : ℕ := 2 ^ p.depthLog2

/-- Bytes of a stored word on the wire. -/
def nb : ℕ := (p.storeW + 7) / 8

/-- Samples in a data frame. -/
def spf : ℕ := if p.depth < 256 then p.depth else 256

def chunks : ℕ := p.depth / p.spf

end Params

/-- One byte of `crc16_ccitt_byte`. -/
def crc16CcittByte (crc : BitVec 16) (b : Byte) : BitVec 16 :=
  (List.range 8).foldl (fun c _ => if c.getLsbD 15 then (c <<< 1) ^^^ 0x1021#16 else c <<< 1)
    (crc ^^^ (b ++ 0#8))

/-- Byte `k` of a word, most significant first. -/
def beByte (x : BitVec 32) (k : ℕ) : Byte := x.extractLsb' (8 * (3 - k)) 8

/-- The states of the engine. -/
inductive DrainSt where
  | hunt | sync1 | rcmd | rlenh | rlenl | rpay | rcrch | rcrcl | dispatch
  | csrPush | csrWait
  | emit
  | rSync0 | rSync1 | rCmd | rLenh | rLenl | rPbuf | rCrch | rCrcl
  | rdExec | rdResp
  | wrExec | wrRdstat | wrResp
  | dRdStatus | dRdTi | dRdTsl | dRdTsh | dRdRle | dHdr
  | dFlags | dWd | dTih | dTil | dTs | dWsel | dWmeta | dWmh | dWml
  | dBufrst | dDf | dChkh | dChkl | dLane | dSbyte | dNext
  deriving DecidableEq

/-- The request frame registers. -/
structure DrainRx where
  rCmd : Byte
  rLen : BitVec 16
  pbuf : Fin 8 → Byte
  pidx : BitVec 4
  plen : BitVec 4
  crcRx : BitVec 16
  crcRxGot : BitVec 16

/-- The response registers. -/
structure DrainTx where
  emitQ : Byte
  crcEnQ : Bool
  tCmd : Byte
  tLen : BitVec 16
  crcTx : BitVec 16
  crcHold : BitVec 16

/-- The CSR operation registers. -/
structure DrainOp where
  cWrite : Bool
  cAddr : BitVec 8
  cWdata : BitVec 32
  rspQ : BitVec 32

/-- The registers of a `DRAIN` in progress. -/
structure DrainJob (p : Params) where
  statusQ : BitVec 32
  tiQ : BitVec 32
  tslQ : BitVec 32
  tshQ : BitVec 32
  rleQ : BitVec 32
  wIdx : BitVec 8
  tsIdx : BitVec 3
  chunkQ : BitVec 8
  sampQ : BitVec 9
  laneQ : BitVec 8
  bidxQ : BitVec 7
  laneBuf : BitVec p.bufPadW

structure Drain (p : Params) where
  st : DrainSt
  retE : DrainSt
  retC : DrainSt
  plState : DrainSt
  afterCrc : DrainSt
  rx : DrainRx
  tx : DrainTx
  op : DrainOp
  job : DrainJob p

/-- Inputs in one `xclk` cycle. -/
structure DrainIn where
  rxData : Byte
  rxValid : Bool
  txReady : Bool
  cmdReady : Bool
  rspData : BitVec 32
  rspValid : Bool

namespace Drain

variable {p : Params}

/-! Outputs -/

def rxReady (d : Drain p) : Bool :=
  match d.st with
  | .hunt | .sync1 | .rcmd | .rlenh | .rlenl | .rpay | .rcrch | .rcrcl => true
  | _ => false

def txData (d : Drain p) : Byte := d.tx.emitQ

def txValid (d : Drain p) : Bool := d.st == .emit

def cmdOp (d : Drain p) : CsrOp := { write := d.op.cWrite, addr := d.op.cAddr, wdata := d.op.cWdata }

def cmdData (d : Drain p) : BitVec 41 := d.cmdOp.pack

def cmdValid (d : Drain p) : Bool := d.st == .csrPush

def rspReady (d : Drain p) : Bool := d.st == .csrWait

def wDone (d : Drain p) : BitVec 8 := d.job.statusQ.extractLsb' 8 8

/-- `{rsp_q[DEPTH_LOG2], 15'(rsp_q[DEPTH_LOG2-1:0])}`. -/
def wmeta16 (p : Params) (rsp : BitVec 32) : BitVec 16 :=
  BitVec.cons (rsp.getLsbD p.depthLog2) ((rsp.setWidth p.depthLog2).setWidth 15)

/-! Clocked process -/

/-- Hand a byte to the emitter and come back in `ret`. -/
def sendByte (d : Drain p) (b : Byte) (crcEn : Bool) (ret : DrainSt) : Drain p :=
  { d with tx.emitQ := b, tx.crcEnQ := crcEn, retE := ret, st := .emit }

/-- Start a CSR operation and come back in `ret`. -/
def startOp (d : Drain p) (o : CsrOp) (ret : DrainSt) : Drain p :=
  { d with op.cWrite := o.write, op.cAddr := o.addr, op.cWdata := o.wdata, retC := ret
           st := .csrPush }

/-- Start a read without touching `c_wdata`. -/
def startRd (d : Drain p) (addr : BitVec 8) (ret : DrainSt) : Drain p :=
  { d with op.cWrite := false, op.cAddr := addr, retC := ret, st := .csrPush }

def nak (d : Drain p) (code : Byte) : Drain p :=
  { d with
    tx.tCmd := scopeOpNak, tx.tLen := 1, rx.pbuf := Function.update d.rx.pbuf 0 code, st := .rSync0 }

/-- `DISPATCH`: checks of the CRC, the opcode and the length, in this order. -/
def dispatch (d : Drain p) : Drain p :=
  let d := { d with rx.plen := 1, plState := .rPbuf, afterCrc := .hunt }
  if d.rx.crcRxGot ≠ d.rx.crcRx then d.nak scopeNakBadCrc
  else if d.rx.rCmd = scopeOpPing then
    { d with
      tx.tCmd := scopeOpPing, tx.tLen := 8, rx.plen := 8, st := .rSync0
      rx.pbuf := fun k => if k.val < 4 then beByte scopeIdReg k else beByte p.idValue (k - 4) }
  else if d.rx.rCmd = scopeOpReadCsr then
    if d.rx.rLen ≠ 1 then d.nak scopeNakBadLen else { d with st := .rdExec }
  else if d.rx.rCmd = scopeOpWriteCsr then
    if d.rx.rLen ≠ 5 then d.nak scopeNakBadLen else { d with st := .wrExec }
  else if d.rx.rCmd = scopeOpDrain then
    if d.rx.rLen ≠ 0 then d.nak scopeNakBadLen else { d with st := .dRdStatus }
  else d.nak scopeNakBadCmd

/-- `emit_q` of the six timestamp bytes, most significant first. -/
def tsByte (j : DrainJob p) : Byte :=
  if j.tsIdx = 5 then j.tshQ.extractLsb' 8 8
  else if j.tsIdx = 4 then j.tshQ.extractLsb' 0 8
  else if j.tsIdx = 3 then j.tslQ.extractLsb' 24 8
  else if j.tsIdx = 2 then j.tslQ.extractLsb' 16 8
  else if j.tsIdx = 1 then j.tslQ.extractLsb' 8 8
  else j.tslQ.extractLsb' 0 8

/-- The `xrst` branch; the registers it leaves out have no reset. -/
def reset (d : Drain p) : Drain p :=
  { d with
    st := .hunt, retE := .hunt, retC := .hunt, plState := .hunt, afterCrc := .hunt
    tx.crcEnQ := false, tx.emitQ := 0, rx.pidx := 0, rx.plen := 0
    op.cWrite := false, op.cAddr := 0, op.cWdata := 0 }

/-- One edge of `xclk` outside reset. -/
def step (d : Drain p) (i : DrainIn) : Drain p :=
  match d.st with
  -- command receive
  | .hunt => if i.rxValid && i.rxData == scopeSync0 then { d with st := .sync1 } else d
  | .sync1 =>
    if i.rxValid then
      if i.rxData == scopeSync1 then { d with st := .rcmd }
      else if i.rxData != scopeSync0 then { d with st := .hunt }
      else d
    else d
  | .rcmd =>
    if i.rxValid then
      { d with rx.rCmd := i.rxData, rx.crcRx := crc16CcittByte 0xFFFF i.rxData, st := .rlenh }
    else d
  | .rlenh =>
    if i.rxValid then
      { d with
        rx.rLen := i.rxData ++ d.rx.rLen.setWidth 8
        rx.crcRx := crc16CcittByte d.rx.crcRx i.rxData, st := .rlenl }
    else d
  | .rlenl =>
    if i.rxValid then
      let len := d.rx.rLen.extractLsb' 8 8 ++ i.rxData
      let d := { d with
        rx.rLen := len, rx.crcRx := crc16CcittByte d.rx.crcRx i.rxData, rx.pidx := 0 }
      if 8 < len then
        -- oversized: answered at once, the payload is not consumed
        { d with
          tx.tCmd := scopeOpNak, tx.tLen := 1
          rx.pbuf := Function.update d.rx.pbuf 0 scopeNakBadLen, rx.plen := 1
          plState := .rPbuf, afterCrc := .hunt, st := .rSync0 }
      else if len = 0 then { d with st := .rcrch }
      else { d with st := .rpay }
    else d
  | .rpay =>
    if i.rxValid then
      { d with
        rx.pbuf := Function.update d.rx.pbuf (d.rx.pidx.setWidth 3).toFin i.rxData
        rx.crcRx := crc16CcittByte d.rx.crcRx i.rxData, rx.pidx := d.rx.pidx + 1
        st := if d.rx.rLen.toNat ≤ d.rx.pidx.toNat + 1 then .rcrch else .rpay }
    else d
  | .rcrch =>
    if i.rxValid then
      { d with rx.crcRxGot := i.rxData ++ d.rx.crcRxGot.setWidth 8, st := .rcrcl }
    else d
  | .rcrcl =>
    if i.rxValid then
      { d with rx.crcRxGot := d.rx.crcRxGot.extractLsb' 8 8 ++ i.rxData, st := .dispatch }
    else d
  | .dispatch => d.dispatch
  -- CSR operation
  | .csrPush => if i.cmdReady then { d with st := .csrWait } else d
  | .csrWait => if i.rspValid then { d with op.rspQ := i.rspData, st := d.retC } else d
  -- byte emit
  | .emit =>
    if i.txReady then
      { d with
        tx.crcTx := if d.tx.crcEnQ then crc16CcittByte d.tx.crcTx d.tx.emitQ else d.tx.crcTx
        st := d.retE }
    else d
  -- response envelope
  | .rSync0 => { d with tx.crcTx := 0xFFFF }.sendByte scopeSync0 false .rSync1
  | .rSync1 => d.sendByte scopeSync1 false .rCmd
  | .rCmd => d.sendByte d.tx.tCmd true .rLenh
  | .rLenh => d.sendByte (d.tx.tLen.extractLsb' 8 8) true .rLenl
  | .rLenl => { d with rx.pidx := 0 }.sendByte (d.tx.tLen.extractLsb' 0 8) true d.plState
  | .rPbuf =>
    if d.rx.plen ≤ d.rx.pidx then { d with st := .rCrch }
    else { d with rx.pidx := d.rx.pidx + 1 }.sendByte (d.rx.pbuf (d.rx.pidx.setWidth 3).toFin) true
      .rPbuf
  | .rCrch => { d with tx.crcHold := d.tx.crcTx }.sendByte (d.tx.crcTx.extractLsb' 8 8) false .rCrcl
  | .rCrcl => d.sendByte (d.tx.crcHold.extractLsb' 0 8) false d.afterCrc
  -- READ_CSR, WRITE_CSR
  | .rdExec => d.startOp (.rd (d.rx.pbuf 0)) .rdResp
  | .rdResp =>
    { d with
      tx.tCmd := scopeOpReadCsr, tx.tLen := 4, rx.plen := 4
      rx.pbuf := fun k => if k.val < 4 then beByte d.op.rspQ k else d.rx.pbuf k
      plState := .rPbuf, afterCrc := .hunt, st := .rSync0 }
  | .wrExec =>
    d.startOp (.wr (d.rx.pbuf 0) (d.rx.pbuf 1 ++ d.rx.pbuf 2 ++ d.rx.pbuf 3 ++ d.rx.pbuf 4)) .wrRdstat
  | .wrRdstat => d.startOp (.rd csrStatus) .wrResp
  | .wrResp =>
    { d with
      tx.tCmd := scopeOpWriteCsr, tx.tLen := 1, rx.plen := 1
      rx.pbuf := Function.update d.rx.pbuf 0 (0#7 ++ BitVec.ofBool (d.op.rspQ.getLsbD 5))
      plState := .rPbuf, afterCrc := .hunt, st := .rSync0 }
  -- DRAIN: gather the header fields
  | .dRdStatus => d.startOp (.rd csrStatus) .dRdTi
  | .dRdTi => { d with job.statusQ := d.op.rspQ }.startRd csrTrigIndex .dRdTsl
  | .dRdTsl => { d with job.tiQ := d.op.rspQ }.startRd csrTstrigLo .dRdTsh
  | .dRdTsh => { d with job.tslQ := d.op.rspQ }.startRd csrTstrigHi .dRdRle
  | .dRdRle => { d with job.tshQ := d.op.rspQ }.startRd csrRleCtrl .dHdr
  | .dHdr =>
    { d with
      job.rleQ := d.op.rspQ, tx.tCmd := scopeOpDrain, tx.tLen := 10 + (0#7 ++ d.wDone ++ 0#1)
      plState := .dFlags, afterCrc := .dBufrst, st := .rSync0, job.wIdx := 0 }
  -- DRAIN: header payload
  | .dFlags =>
    d.sendByte (0#6 ++ BitVec.ofBool (d.job.statusQ.getLsbD 4) ++ BitVec.ofBool p.rleEn) true .dWd
  | .dWd => d.sendByte d.wDone true .dTih
  | .dTih => d.sendByte (d.job.tiQ.extractLsb' 8 8) true .dTil
  | .dTil => { d with job.tsIdx := 5 }.sendByte (d.job.tiQ.extractLsb' 0 8) true .dTs
  | .dTs =>
    { d with job.tsIdx := if d.job.tsIdx = 0 then d.job.tsIdx else d.job.tsIdx - 1 }.sendByte
      (tsByte d.job) true (if d.job.tsIdx = 0 then .dWsel else .dTs)
  | .dWsel =>
    if d.wDone ≤ d.job.wIdx then { d with st := .rCrch }
    else d.startOp (.wr csrWinSel (d.job.wIdx.setWidth 32)) .dWmeta
  | .dWmeta => d.startOp (.rd csrWinMeta) .dWmh
  | .dWmh => d.sendByte ((wmeta16 p d.op.rspQ).extractLsb' 8 8) true .dWml
  | .dWml =>
    { d with job.wIdx := d.job.wIdx + 1 }.sendByte ((wmeta16 p d.op.rspQ).extractLsb' 0 8) true .dWsel
  -- DRAIN: data frames
  | .dBufrst => { d with job.chunkQ := 0 }.startOp (.wr csrBufCtrl 1) .dDf
  | .dDf =>
    { d with
      tx.tCmd := scopeOpDrainData, tx.tLen := BitVec.ofNat 16 (2 + p.spf * p.nb), plState := .dChkh
      afterCrc := if p.chunks ≤ d.job.chunkQ.toNat + 1 then .hunt else .dDf
      job.sampQ := 0, st := .rSync0 }
  | .dChkh => d.sendByte 0 true .dChkl
  | .dChkl => { d with job.laneQ := 0 }.sendByte d.job.chunkQ true .dLane
  | .dLane =>
    if p.bufLanes ≤ d.job.laneQ.toNat then { d with job.bidxQ := 0, st := .dSbyte }
    else d.startOp (.rd csrBufData) .dNext
  | .dNext =>
    { d with
      job.laneBuf := setLane d.job.laneBuf (d.job.laneQ.setWidth 4).toNat d.op.rspQ
      job.laneQ := d.job.laneQ + 1, st := .dLane }
  | .dSbyte =>
    if p.nb ≤ d.job.bidxQ.toNat then
      if p.spf ≤ d.job.sampQ.toNat + 1 then
        { d with
          job.sampQ := d.job.sampQ + 1, job.laneQ := 0, job.chunkQ := d.job.chunkQ + 1, st := .rCrch }
      else { d with job.sampQ := d.job.sampQ + 1, job.laneQ := 0, st := .dLane }
    else
      { d with job.bidxQ := d.job.bidxQ + 1 }.sendByte
        (d.job.laneBuf.extractLsb' (8 * (d.job.bidxQ.setWidth 6).toNat) 8) true .dSbyte

end Drain

end FpgaScope
