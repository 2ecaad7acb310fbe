import FpgaScope.Engine.Flow

/-! Frames as flows. Between the length bytes and the CRC bytes everything sent goes
through the CRC register, so whatever payload a state sequence sends, the envelope
around it makes it a frame of the host codec. -/

namespace FpgaScope.Drain

open Protocol Host

variable {p : Params} {ρ : ℕ → BitVec 32} {d d' d'' : Drain p} {j j' j'' : ℕ} {bs bs' : List Byte}
  {os os' : List CsrOp}

/-! ### Payload -/

/-- A flow whose bytes all go through the CRC register. -/
structure Pays (ρ : ℕ → BitVec 32) (d : Drain p) (j : ℕ) (bs : List Byte) (os : List CsrOp)
    (d' : Drain p) (j' : ℕ) : Prop where
  flow : Flow ρ d j bs os d' j'
  crc : d'.tx.crcTx = bs.foldl crc16CcittByte d.tx.crcTx
  after : d'.afterCrc = d.afterCrc

namespace Pays

theorem refl (d : Drain p) (j : ℕ) : Pays ρ d j [] [] d j := ⟨.refl _ _, rfl, rfl⟩

theorem trans (h : Pays ρ d j bs os d' j') (h' : Pays ρ d' j' bs' os' d'' j'') :
    Pays ρ d j (bs ++ bs') (os ++ os') d'' j'' :=
  ⟨h.flow.trans h'.flow, by rw [h'.crc, h.crc, List.foldl_append], h'.after.trans h.after⟩

/-- A move without a handshake. -/
theorem quiet (hs : Internal d.st) (h : d.move (ρ j) = d') (hc : d'.tx.crcTx = d.tx.crcTx)
    (ha : d'.afterCrc = d.afterCrc) : Pays ρ d j [] [] d' j := ⟨.quiet hs h, hc, ha⟩

/-- A payload byte; `e` is the engine as it is handed to the emitter. -/
theorem byte {e : Drain p} {b : Byte} {ret : DrainSt} (hs : Internal d.st)
    (h : d.move (ρ j) = e.sendByte b true ret) (hc : e.tx.crcTx = d.tx.crcTx)
    (ha : e.afterCrc = d.afterCrc) : Pays ρ d j [b] [] (e.sendByte b true ret).afterSend j :=
  ⟨.send hs h rfl, by
    change crc16CcittByte e.tx.crcTx b = crc16CcittByte d.tx.crcTx b
    rw [hc], ha⟩

/-- An operation; `e` is the engine before it is started. -/
theorem call {e : Drain p} {o : CsrOp} {ret : DrainSt} (hs : Internal d.st)
    (h : d.move (ρ j) = e.startOp o ret) (hc : e.tx.crcTx = d.tx.crcTx)
    (ha : e.afterCrc = d.afterCrc) :
    Pays ρ d j [] [o] ((e.startOp o ret).afterOp (ρ j)) (j + 1) :=
  ⟨.call hs h rfl, hc, ha⟩

theorem composes (ρ : ℕ → BitVec 32) : Composes (p := p) (Pays ρ) := ⟨refl, trans⟩

end Pays

/-! ### Envelope -/

theorem prologue (h : d.st = .rSync0) : ∃ d', Flow ρ d j
      [scopeSync0, scopeSync1, d.tx.tCmd, hi d.tx.tLen, lo d.tx.tLen] [] d' j ∧
    d'.st = d.plState ∧ d'.tx.crcTx = crcOf [d.tx.tCmd, hi d.tx.tLen, lo d.tx.tLen] ∧
    d'.rx = { d.rx with pidx := 0 } ∧ d'.job = d.job ∧ d'.afterCrc = d.afterCrc := by
  let d₁ := ({ d with tx.crcTx := 0xFFFF }.sendByte scopeSync0 false .rSync1).afterSend
  let d₂ := (d₁.sendByte scopeSync1 false .rCmd).afterSend
  let d₃ := (d₂.sendByte d.tx.tCmd true .rLenh).afterSend
  let d₄ := (d₃.sendByte (hi d.tx.tLen) true .rLenl).afterSend
  let d₅ := ({ d₄ with rx.pidx := 0 }.sendByte (lo d.tx.tLen) true d.plState).afterSend
  have h₁ : Flow ρ d j [scopeSync0] [] d₁ j := .send (by rw [h]; trivial) (by rw [move, step, h]) rfl
  have h₂ : Flow ρ d₁ j [scopeSync1] [] d₂ j := .send (by exact trivial) rfl rfl
  have h₃ : Flow ρ d₂ j [d.tx.tCmd] [] d₃ j := .send (by exact trivial) rfl rfl
  have h₄ : Flow ρ d₃ j [hi d.tx.tLen] [] d₄ j := .send (by exact trivial) rfl rfl
  have h₅ : Flow ρ d₄ j [lo d.tx.tLen] [] d₅ j := .send (by exact trivial) rfl rfl
  exact ⟨d₅, (((h₁.trans h₂).trans h₃).trans h₄).trans h₅, rfl, rfl, rfl, rfl, rfl⟩

theorem epilogue (h : d.st = .rCrch) : ∃ d', Flow ρ d j [hi d.tx.crcTx, lo d.tx.crcTx] [] d' j ∧
    d'.st = d.afterCrc ∧ d'.job = d.job := by
  let d₁ := ({ d with tx.crcHold := d.tx.crcTx }.sendByte (hi d.tx.crcTx) false .rCrcl).afterSend
  let d₂ := (d₁.sendByte (lo d.tx.crcTx) false d.afterCrc).afterSend
  have h₁ : Flow ρ d j [hi d.tx.crcTx] [] d₁ j :=
    .send (by rw [h]; trivial) (by rw [move, step, h]) rfl
  have h₂ : Flow ρ d₁ j [lo d.tx.crcTx] [] d₂ j := .send (by exact trivial) rfl rfl
  exact ⟨d₂, h₁.trans h₂, rfl, rfl⟩

/-- A payload of the announced length becomes a frame. -/
theorem frame_flow {payload : List Byte} (Q : DrainJob p → Prop) (h : d.st = .rSync0)
    (hlen : d.tx.tLen = BitVec.ofNat 16 payload.length) (hle : payload.length ≤ 0xFFFF)
    (hpay : ∀ d₁ : Drain p, d₁.st = d.plState → d₁.rx = { d.rx with pidx := 0 } → d₁.job = d.job →
      ∃ d₂, Pays ρ d₁ j payload os d₂ j' ∧ d₂.st = .rCrch ∧ Q d₂.job) :
    ∃ d', Flow ρ d j (frameBytes d.tx.tCmd payload) os d' j' ∧ d'.st = d.afterCrc ∧ Q d'.job := by
  obtain ⟨d₁, hf₁, hst₁, hcrc₁, hrx₁, hjob₁, ha₁⟩ := prologue (ρ := ρ) (j := j) h
  obtain ⟨d₂, hp, hst₂, hq⟩ := hpay d₁ hst₁ hrx₁ hjob₁
  obtain ⟨d₃, hf₃, hst₃, hjob₃⟩ := epilogue (ρ := ρ) (j := j') hst₂
  have hcrc : d₂.tx.crcTx = crcOf (body d.tx.tCmd payload) := by
    rw [hp.crc, hcrc₁, body, crcOf_append, hlen]
  refine ⟨d₃, ?_, by rw [hst₃, hp.after, ha₁], by rw [hjob₃]; exact hq⟩
  have hall := (hf₁.trans hp.flow).trans hf₃
  rw [hcrc, hlen, List.nil_append, List.append_nil] at hall
  rw [frameBytes_eq hle, frame, body]
  exact hall

theorem ofNat_le_ofNat {w a b : ℕ} (ha : a < 2 ^ w) (hb : b < 2 ^ w) :
    BitVec.ofNat w a ≤ BitVec.ofNat w b ↔ a ≤ b := by
  rw [BitVec.le_def, BitVec.toNat_ofNat, BitVec.toNat_ofNat, Nat.mod_eq_of_lt ha, Nat.mod_eq_of_lt hb]

theorem flatMap_nil_range {α : Type*} (n : ℕ) : ((List.range n).flatMap fun _ => ([] : List α)) = [] :=
  List.flatMap_eq_nil_iff.mpr fun _ _ => rfl

/-- The first `n` bytes of `pbuf`. -/
def pbufBytes (d : Drain p) (n : ℕ) : List Byte :=
  (List.range n).flatMap fun k => [d.rx.pbuf (BitVec.ofNat 3 k).toFin]

theorem pbuf_pays {n : ℕ} (hn : n ≤ 8) (h : d.st = .rPbuf) (hidx : d.rx.pidx = 0)
    (hplen : d.rx.plen = BitVec.ofNat 4 n) :
    ∃ d', Pays ρ d j (d.pbufBytes n) [] d' j ∧ d'.st = .rCrch := by
  let I : ℕ → Drain p → Prop := fun i e => e.st = .rPbuf ∧ e.rx.pidx = BitVec.ofNat 4 i ∧
    e.rx.plen = BitVec.ofNat 4 n ∧ e.rx.pbuf = d.rx.pbuf
  have hturn : ∀ i < n, ∀ e, I i e →
      ∃ e', Pays ρ e j [d.rx.pbuf (BitVec.ofNat 3 i).toFin] [] e' j ∧ I (i + 1) e' := by
    rintro i hi e ⟨hst, hpidx, hpl, hbuf⟩
    have hle : ¬ e.rx.plen ≤ e.rx.pidx := by
      rw [hpl, hpidx, ofNat_le_ofNat (by omega) (by omega)]
      omega
    have hfin : (e.rx.pidx.setWidth 3).toFin = (BitVec.ofNat 3 i).toFin := by
      apply Fin.ext
      rw [hpidx]
      change i % 16 % 8 = i % 8
      omega
    have hm : e.move (ρ j) = { e with rx.pidx := e.rx.pidx + 1 }.sendByte
        (d.rx.pbuf (BitVec.ofNat 3 i).toFin) true .rPbuf := by
      rw [move, step, hst]
      dsimp only
      rw [if_neg hle, hbuf, hfin]
    refine ⟨_, .byte (by rw [hst]; trivial) hm rfl rfl, rfl, ?_, hpl, hbuf⟩
    change e.rx.pidx + 1 = _
    rw [hpidx, BitVec.ofNat_add]
    rfl
  obtain ⟨e, hpays, hst, hpidx, hpl, -⟩ := (Pays.composes ρ).loop I _ (fun _ => []) (fun _ => j) hturn
    ⟨h, hidx, hplen, rfl⟩
  have hend : Pays ρ e j [] [] { e with st := .rCrch } j := by
    refine .quiet (by rw [hst]; trivial) ?_ rfl rfl
    rw [move, step, hst]
    dsimp only
    rw [if_pos (by rw [hpl, hpidx, ofNat_le_ofNat (by omega) (by omega)])]
  refine ⟨{ e with st := .rCrch }, ?_, rfl⟩
  have hall := hpays.trans hend
  rwa [flatMap_nil_range, List.append_nil] at hall

/-- A frame whose payload is in `pbuf`. -/
theorem pbuf_flow {n : ℕ} (hn : n ≤ 8) (h : d.st = .rSync0) (hpl : d.plState = .rPbuf)
    (ha : d.afterCrc = .hunt) (hplen : d.rx.plen = BitVec.ofNat 4 n)
    (hlen : d.tx.tLen = BitVec.ofNat 16 n) :
    ∃ d', Flow ρ d j (frameBytes d.tx.tCmd (d.pbufBytes n)) [] d' j ∧ d'.st = .hunt := by
  have hl : (d.pbufBytes n).length = n := by simp [pbufBytes]
  have hpay : ∀ d₁ : Drain p, d₁.st = d.plState → d₁.rx = { d.rx with pidx := 0 } → d₁.job = d.job →
      ∃ d₂, Pays ρ d₁ j (d.pbufBytes n) [] d₂ j ∧ d₂.st = .rCrch ∧ True := by
    intro d₁ hst₁ hrx₁ _
    obtain ⟨d₂, hp, hst₂⟩ := pbuf_pays (ρ := ρ) (j := j) (d := d₁) hn (hst₁.trans hpl)
      (by rw [hrx₁]) (by rw [hrx₁]; exact hplen)
    have hbytes : d₁.pbufBytes n = d.pbufBytes n := by rw [pbufBytes, pbufBytes, hrx₁]
    rw [hbytes] at hp
    exact ⟨d₂, hp, hst₂, trivial⟩
  obtain ⟨d', hf, hst, -⟩ := frame_flow (fun _ => True) h (by rw [hl, hlen]) (by rw [hl]; omega) hpay
  exact ⟨d', hf, hst.trans ha⟩

end FpgaScope.Drain
