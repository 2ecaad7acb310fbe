import FpgaScope.Protocol.Request

/-! What a request is answered with: the CSR operations it causes, in order, and the
bytes of its response frames. The replies to the operations are an input, numbered from
the first operation of the request. How a drained word is packed is a parameter:
`wordBytes` is the documented packing. -/

namespace FpgaScope.Protocol

open Host

structure Response where
  ops : List CsrOp
  sent : List Byte

/-- A response frame as the host codec builds it. -/
def frameBytes (cmd : Byte) (payload : List Byte) : List Byte :=
  match buildFrame cmd.toNat payload with
  | .ok bytes => bytes
  | .error _ => []

theorem frameBytes_eq {cmd : Byte} {payload : List Byte} (h : payload.length ≤ 0xFFFF) :
    frameBytes cmd payload = frame cmd payload := by
  rw [frameBytes, buildFrame_eq h]

def be16 (x : BitVec 16) : List Byte := [hi x, lo x]

def be32 (x : BitVec 32) : List Byte := [beByte x 0, beByte x 1, beByte x 2, beByte x 3]

/-- Byte `k` of a word, least significant first. -/
def leByte (x : BitVec 32) (k : ℕ) : Byte := x.extractLsb' (8 * k) 8

/-- `ceil(STORE_W/8)` bytes of a stored word, least significant first, out of its lanes. -/
def wordBytes (p : Params) (lane : ℕ → BitVec 32) : List Byte :=
  (List.range p.nb).map fun b => leByte (lane (b / 4)) (b % 4)

variable (p : Params)

/-! ### DRAIN -/

/-- `windows_done` out of `STATUS`. -/
def windowsOf (status : BitVec 32) : ℕ := (status.extractLsb' 8 8).toNat

/-- The reads for the header fields. -/
def gatherOps : List CsrOp :=
  [.rd csrStatus, .rd csrTrigIndex, .rd csrTstrigLo, .rd csrTstrigHi, .rd csrRleCtrl]

/-- Select window `w` and read its metadata. -/
def metaOps (w : ℕ) : List CsrOp := [.wr csrWinSel (BitVec.ofNat 32 w), .rd csrWinMeta]

/-- The operations of a `DRAIN`: header fields, metadata of every window, and the buffer
lane by lane. -/
def drainOps (reply : ℕ → BitVec 32) : List CsrOp :=
  gatherOps ++ (List.range (windowsOf (reply 0))).flatMap metaOps ++
    CsrOp.wr csrBufCtrl 1 :: List.replicate (p.depth * p.bufLanes) (CsrOp.rd csrBufData)

/-- Bit 1 wrapped, bit 0 the encoder parameter. -/
def drainFlags (status : BitVec 32) : Byte :=
  0#6 ++ BitVec.ofBool (status.getLsbD 4) ++ BitVec.ofBool p.rleEn

/-- flags, windows_done, trig_index, ts48, then `{wrapped, trig_index[14:0]}` per window. -/
def drainHeader (reply : ℕ → BitVec 32) : List Byte :=
  [drainFlags p (reply 0), (reply 0).extractLsb' 8 8] ++ be16 ((reply 1).setWidth 16) ++
    be16 ((reply 3).setWidth 16) ++ be32 (reply 2) ++
    (List.range (windowsOf (reply 0))).flatMap fun w =>
      be16 (Drain.wmeta16 p (reply (5 + (2 * w + 1))))

/-- The lanes of stored word `a`. -/
def drainWord (reply : ℕ → BitVec 32) (a lane : ℕ) : BitVec 32 :=
  reply (5 + 2 * windowsOf (reply 0) + 1 + (a * p.bufLanes + lane))

/-- Chunk index and the words of chunk `c`. -/
def drainData (pack : (ℕ → BitVec 32) → List Byte) (reply : ℕ → BitVec 32) (c : ℕ) : List Byte :=
  be16 (BitVec.ofNat 16 c) ++
    (List.range p.spf).flatMap fun s => pack (drainWord p reply (c * p.spf + s))

def drain (pack : (ℕ → BitVec 32) → List Byte) (reply : ℕ → BitVec 32) : Response where
  ops := drainOps p reply
  sent := frameBytes scopeOpDrain (drainHeader p reply) ++
    (List.range p.chunks).flatMap fun c => frameBytes scopeOpDrainData (drainData p pack reply c)

/-! ### All requests -/

def nak (code : Byte) : Response := { ops := [], sent := frameBytes scopeOpNak [code] }

/-- The answer to one request. -/
def respond (pack : (ℕ → BitVec 32) → List Byte) (reply : ℕ → BitVec 32) : Request → Response
  | .oversized => nak scopeNakBadLen
  | .frame cmd payload crc =>
    if crc.toNat ≠ crc16Ccitt (body cmd payload) 0xFFFF then nak scopeNakBadCrc
    else if cmd = scopeOpPing then
      { ops := [], sent := frameBytes scopeOpPing (be32 scopeIdReg ++ be32 p.idValue) }
    else if cmd = scopeOpReadCsr then
      match payload with
      | [addr] => { ops := [.rd addr], sent := frameBytes scopeOpReadCsr (be32 (reply 0)) }
      | _ => nak scopeNakBadLen
    else if cmd = scopeOpWriteCsr then
      match payload with
      | [addr, v0, v1, v2, v3] =>
        { ops := [.wr addr (v0 ++ v1 ++ v2 ++ v3), .rd csrStatus]
          sent := frameBytes scopeOpWriteCsr [0#7 ++ BitVec.ofBool ((reply 1).getLsbD 5)] }
      | _ => nak scopeNakBadLen
    else if cmd = scopeOpDrain then
      match payload with
      | [] => drain p pack reply
      | _ => nak scopeNakBadLen
    else nak scopeNakBadCmd

/-- The answers to a sequence of requests; the replies are numbered throughout. -/
def answer (pack : (ℕ → BitVec 32) → List Byte) : List Request → (ℕ → BitVec 32) → Response
  | [], _ => { ops := [], sent := [] }
  | r :: rs, reply =>
    let a := respond p pack reply r
    let b := answer pack rs fun k => reply (a.ops.length + k)
    { ops := a.ops ++ b.ops, sent := a.sent ++ b.sent }

theorem answer_snoc (pack : (ℕ → BitVec 32) → List Byte) (rs : List Request) (r : Request)
    (reply : ℕ → BitVec 32) :
    let a := answer p pack rs reply
    let b := respond p pack (fun k => reply (a.ops.length + k)) r
    answer p pack (rs ++ [r]) reply = { ops := a.ops ++ b.ops, sent := a.sent ++ b.sent } := by
  induction rs generalizing reply with
  | nil => simp [answer]
  | cons r' rs ih =>
    simp only [List.cons_append, answer, ih, List.append_assoc, List.length_append, Nat.add_assoc]

end FpgaScope.Protocol
