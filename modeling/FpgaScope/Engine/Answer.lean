import FpgaScope.Engine.Dump

/-! Every complete request is answered as the reference says: from the end of its last
byte a flow sends the response, issues the operations and leads back to the hunt. -/

namespace FpgaScope.Drain

open Protocol Host

variable {p : Params} {ρ : ℕ → BitVec 32} {d : Drain p} {j : ℕ}

/-- A NAK about to be sent. -/
structure NakReady (d : Drain p) (code : Byte) : Prop where
  st : d.st = .rSync0
  tCmd : d.tx.tCmd = scopeOpNak
  tLen : d.tx.tLen = 1
  plen : d.rx.plen = 1
  plState : d.plState = .rPbuf
  afterCrc : d.afterCrc = .hunt
  code : d.rx.pbuf 0 = code

/-- A request that has been received. -/
structure Ready (d : Drain p) (cmd : Byte) (payload : List Byte) (crc : BitVec 16) : Prop where
  st : d.st = .dispatch
  rCmd : d.rx.rCmd = cmd
  rLen : d.rx.rLen = BitVec.ofNat 16 payload.length
  len_le : payload.length ≤ 8
  pbuf : ∀ k : Fin 8, k.val < payload.length → payload[k.val]? = some (d.rx.pbuf k)
  crcRx : d.rx.crcRx = crcOf (body cmd payload)
  crcGot : d.rx.crcRxGot = crc

theorem NakReady.flow {code : Byte} (h : NakReady d code) :
    ∃ d', Flow ρ d j (Protocol.nak code).sent [] d' j ∧ d'.st = .hunt := by
  have hbytes : d.pbufBytes 1 = [code] := by
    rw [← h.code]
    rfl
  obtain ⟨d', hf, hst⟩ := pbuf_flow (ρ := ρ) (j := j) (n := 1) (by omega) h.st h.plState h.afterCrc
    h.plen h.tLen
  rw [hbytes, h.tCmd] at hf
  exact ⟨d', hf, hst⟩

/-- The engine after the checks of `dispatch`, in the state that executes the request. -/
def accept (d : Drain p) (st : DrainSt) : Drain p :=
  { d with rx.plen := 1, plState := .rPbuf, afterCrc := .hunt, st := st }

/-- The engine with the payload of a `PING` response. -/
def pong (d : Drain p) : Drain p :=
  { d with
    plState := .rPbuf, afterCrc := .hunt, tx.tCmd := scopeOpPing, tx.tLen := 8, rx.plen := 8
    rx.pbuf := fun k => if k.val < 4 then beByte scopeIdReg k else beByte p.idValue (k - 4)
    st := .rSync0 }

/-- A flow of the length of its response. -/
def Answers (ρ : ℕ → BitVec 32) (d : Drain p) (j : ℕ) (r : Response) : Prop :=
  ∃ d', Flow ρ d j r.sent r.ops d' (j + r.ops.length) ∧ d'.st = .hunt

namespace Ready

variable {cmd : Byte} {payload : List Byte} {crc : BitVec 16} (h : Ready d cmd payload crc)
include h

theorem dispatched {e : Drain p} (hd : d.dispatch = e) : Flow ρ d j [] [] e j :=
  .quiet (by rw [h.st]; trivial) (by rw [move, step, h.st]; exact hd)

/-- A refused request: `dispatch` fills in the code. -/
theorem refused {code : Byte} (hd : d.dispatch = (d.accept d.st).nak code) :
    Answers ρ d j (Protocol.nak code) := by
  have hn : NakReady ((d.accept d.st).nak code) code :=
    ⟨rfl, rfl, rfl, rfl, rfl, rfl, by
      change Function.update d.rx.pbuf 0 code 0 = code
      rw [Function.update_self]⟩
  obtain ⟨d', hf, hst⟩ := hn.flow (ρ := ρ) (j := j)
  exact ⟨d', (h.dispatched hd).trans hf, hst⟩

theorem len_eq {n : ℕ} (hn : n ≤ 8) : d.rx.rLen = BitVec.ofNat 16 n ↔ payload.length = n := by
  have hle := h.len_le
  rw [h.rLen]
  constructor
  · intro he
    have ht := congrArg BitVec.toNat he
    rwa [BitVec.toNat_ofNat, BitVec.toNat_ofNat, Nat.mod_eq_of_lt (by omega),
      Nat.mod_eq_of_lt (by omega)] at ht
  · intro he
    rw [he]

/-- The guards of `dispatch`, in terms of the request. -/
theorem crc_iff : d.rx.crcRxGot ≠ d.rx.crcRx ↔ crc.toNat ≠ crc16Ccitt (body cmd payload) 0xFFFF := by
  rw [h.crcGot, h.crcRx, crc16Ccitt_eq, ne_eq, ne_eq, BitVec.toNat_inj]

/-- The answer to `PING`. -/
theorem ping (hd : d.dispatch = d.pong) :
    Answers ρ d j { ops := [], sent := frameBytes scopeOpPing (be32 scopeIdReg ++ be32 p.idValue) } := by
  obtain ⟨d', hf, hst⟩ := pbuf_flow (ρ := ρ) (j := j) (d := d.pong) (n := 8) le_rfl rfl rfl rfl rfl rfl
  exact ⟨d', (h.dispatched hd).trans hf, hst⟩

/-- The answer to a `READ_CSR`. -/
theorem read (hd : d.dispatch = d.accept .rdExec) :
    Answers ρ d j
      { ops := [.rd (d.rx.pbuf 0)], sent := frameBytes scopeOpReadCsr (be32 (ρ j)) } := by
  have hf₁ := h.dispatched (ρ := ρ) (j := j) hd
  let d₁ := d.accept .rdExec
  let d₂ := (d₁.startOp (.rd (d.rx.pbuf 0)) .rdResp).afterOp (ρ j)
  have hf₂ : Flow ρ d₁ j [] [.rd (d.rx.pbuf 0)] d₂ (j + 1) := .call (by exact trivial) rfl rfl
  have hf₃ : Flow ρ d₂ (j + 1) [] [] (d₂.move 0) (j + 1) := .quiet (by exact trivial) rfl
  obtain ⟨d', hf₄, hst⟩ := pbuf_flow (ρ := ρ) (j := j + 1) (d := d₂.move 0) (n := 4) (by omega)
    rfl rfl rfl rfl rfl
  exact ⟨d', ((hf₁.trans hf₂).trans hf₃).trans hf₄, hst⟩

/-- The answer to a `WRITE_CSR`. -/
theorem write (hd : d.dispatch = d.accept .wrExec) :
    Answers ρ d j
      { ops := [.wr (d.rx.pbuf 0) (d.rx.pbuf 1 ++ d.rx.pbuf 2 ++ d.rx.pbuf 3 ++ d.rx.pbuf 4),
          .rd csrStatus]
        sent := frameBytes scopeOpWriteCsr [0#7 ++ BitVec.ofBool ((ρ (j + 1)).getLsbD 5)] } := by
  have hf₁ := h.dispatched (ρ := ρ) (j := j) hd
  let o : CsrOp := .wr (d.rx.pbuf 0) (d.rx.pbuf 1 ++ d.rx.pbuf 2 ++ d.rx.pbuf 3 ++ d.rx.pbuf 4)
  let d₁ := d.accept .wrExec
  let d₂ := (d₁.startOp o .wrRdstat).afterOp (ρ j)
  let d₃ := (d₂.startOp (.rd csrStatus) .wrResp).afterOp (ρ (j + 1))
  have hf₂ : Flow ρ d₁ j [] [o] d₂ (j + 1) := .call (by exact trivial) rfl rfl
  have hf₃ : Flow ρ d₂ (j + 1) [] [.rd csrStatus] d₃ (j + 2) := .call (by exact trivial) rfl rfl
  have hf₄ : Flow ρ d₃ (j + 2) [] [] (d₃.move 0) (j + 2) := .quiet (by exact trivial) rfl
  obtain ⟨d', hf₅, hst⟩ := pbuf_flow (ρ := ρ) (j := j + 2) (d := d₃.move 0) (n := 1) (by omega)
    rfl rfl rfl rfl rfl
  exact ⟨d', (((hf₁.trans hf₂).trans hf₃).trans hf₄).trans hf₅, hst⟩

/-- A `DRAIN` request. -/
theorem drain (hd : d.dispatch = d.accept .dRdStatus) :
    Answers ρ d j (Protocol.drain p (laneBytes p) fun k => ρ (j + k)) := by
  obtain ⟨d', hf, hst⟩ := drain_flow (ρ := ρ) (j := j) (d := d.accept .dRdStatus) rfl
  exact ⟨d', (h.dispatched hd).trans hf, hst⟩

/-! The three opcodes with a length check -/

theorem dispatch_read (hc : ¬ d.rx.crcRxGot ≠ d.rx.crcRx) (hcmd : cmd = scopeOpReadCsr) :
    (payload.length = 1 → d.dispatch = d.accept .rdExec) ∧
      (payload.length ≠ 1 → d.dispatch = (d.accept d.st).nak scopeNakBadLen) := by
  have hop := h.rCmd.trans hcmd
  have hlen : d.rx.rLen = 1 ↔ _ := h.len_eq (n := 1) (by omega)
  rw [dispatch]
  dsimp only
  rw [if_neg hc, if_neg (by rw [hop]; decide), if_pos hop]
  exact ⟨fun hl => if_neg (not_not.mpr (hlen.mpr hl)), fun hl => if_pos (mt hlen.mp hl)⟩

theorem dispatch_write (hc : ¬ d.rx.crcRxGot ≠ d.rx.crcRx) (hcmd : cmd = scopeOpWriteCsr) :
    (payload.length = 5 → d.dispatch = d.accept .wrExec) ∧
      (payload.length ≠ 5 → d.dispatch = (d.accept d.st).nak scopeNakBadLen) := by
  have hop := h.rCmd.trans hcmd
  have hlen : d.rx.rLen = 5 ↔ _ := h.len_eq (n := 5) (by omega)
  rw [dispatch]
  dsimp only
  rw [if_neg hc, if_neg (by rw [hop]; decide), if_neg (by rw [hop]; decide), if_pos hop]
  exact ⟨fun hl => if_neg (not_not.mpr (hlen.mpr hl)), fun hl => if_pos (mt hlen.mp hl)⟩

theorem dispatch_drain (hc : ¬ d.rx.crcRxGot ≠ d.rx.crcRx) (hcmd : cmd = scopeOpDrain) :
    (payload.length = 0 → d.dispatch = d.accept .dRdStatus) ∧
      (payload.length ≠ 0 → d.dispatch = (d.accept d.st).nak scopeNakBadLen) := by
  have hop := h.rCmd.trans hcmd
  have hlen : d.rx.rLen = 0 ↔ _ := h.len_eq (n := 0) (by omega)
  rw [dispatch]
  dsimp only
  rw [if_neg hc, if_neg (by rw [hop]; decide), if_neg (by rw [hop]; decide),
    if_neg (by rw [hop]; decide), if_pos hop]
  exact ⟨fun hl => if_neg (not_not.mpr (hlen.mpr hl)), fun hl => if_pos (mt hlen.mp hl)⟩

/-- Byte `k` of the payload is in `pbuf`. -/
theorem pbuf_eq (k : Fin 8) {b : Byte} (hb : payload[k.val]? = some b) : b = d.rx.pbuf k := by
  obtain ⟨hk, -⟩ := List.getElem?_eq_some_iff.mp hb
  rw [h.pbuf k hk] at hb
  exact (Option.some.inj hb).symm

/-- Every request that has been received is answered. -/
theorem answered : Answers ρ d j
    (respond p (laneBytes p) (fun k => ρ (j + k)) (.frame cmd payload crc)) := by
  have hcmd := h.rCmd
  have hcrc := h.crc_iff
  unfold respond
  dsimp only
  by_cases hc : d.rx.crcRxGot ≠ d.rx.crcRx
  · rw [if_pos (hcrc.mp hc)]
    refine h.refused ?_
    rw [dispatch]
    dsimp only
    rw [if_pos hc]
    rfl
  · rw [if_neg (fun hx => hc (hcrc.mpr hx))]
    by_cases h1 : cmd = scopeOpPing
    · rw [if_pos h1]
      refine h.ping ?_
      rw [dispatch]
      dsimp only
      rw [if_neg hc, if_pos (hcmd.trans h1)]
      rfl
    · rw [if_neg h1]
      by_cases h2 : cmd = scopeOpReadCsr
      · rw [if_pos h2]
        obtain ⟨hgood, hbad⟩ := h.dispatch_read hc h2
        split
        · rename_i addr
          rw [h.pbuf_eq 0 (b := addr) rfl]
          exact h.read (hgood rfl)
        · rename_i hne
          refine h.refused (hbad fun hl => ?_)
          obtain ⟨addr, rfl⟩ := List.length_eq_one_iff.mp hl
          exact hne addr rfl
      · rw [if_neg h2]
        by_cases h3 : cmd = scopeOpWriteCsr
        · rw [if_pos h3]
          obtain ⟨hgood, hbad⟩ := h.dispatch_write hc h3
          split
          · rename_i addr v0 v1 v2 v3
            rw [h.pbuf_eq 0 (b := addr) rfl, h.pbuf_eq 1 (b := v0) rfl, h.pbuf_eq 2 (b := v1) rfl,
              h.pbuf_eq 3 (b := v2) rfl, h.pbuf_eq 4 (b := v3) rfl]
            exact h.write (hgood rfl)
          · rename_i hne
            refine h.refused (hbad fun hl => ?_)
            match payload, hl with
            | [addr, v0, v1, v2, v3], _ => exact hne addr v0 v1 v2 v3 rfl
        · rw [if_neg h3]
          by_cases h4 : cmd = scopeOpDrain
          · rw [if_pos h4]
            obtain ⟨hgood, hbad⟩ := h.dispatch_drain hc h4
            split
            · exact h.drain (hgood rfl)
            · rename_i hne
              exact h.refused (hbad fun hl => hne (List.length_eq_zero_iff.mp hl))
          · rw [if_neg h4]
            refine h.refused ?_
            rw [dispatch]
            dsimp only
            rw [if_neg hc, if_neg (fun hx => h1 (hcmd.symm.trans hx)),
              if_neg (fun hx => h2 (hcmd.symm.trans hx)), if_neg (fun hx => h3 (hcmd.symm.trans hx)),
              if_neg (fun hx => h4 (hcmd.symm.trans hx))]
            rfl

end Ready

end FpgaScope.Drain
