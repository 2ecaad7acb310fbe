import FpgaScope.Engine.Answer

/-! Receiving. The registers of a receiving engine are determined by the bytes since the
last request: hunting through them, or the part of a frame after the sync. One more byte
either extends that part or completes the request. -/

namespace FpgaScope.Drain

open Protocol Host

variable {p : Params} {d : Drain p}

/-- The registers behind the length field of a request. -/
structure Header (d : Drain p) (cmd lh ll : Byte) (payload : List Byte) : Prop where
  rCmd : d.rx.rCmd = cmd
  rLen : d.rx.rLen = lh ++ ll
  len_le : (lh ++ ll).toNat ≤ 8
  pbuf : ∀ k : Fin 8, k.val < payload.length → payload[k.val]? = some (d.rx.pbuf k)
  crcRx : d.rx.crcRx = crcOf (cmd :: lh :: ll :: payload)

/-- The engine has received `got` after a sync. -/
inductive Synced (d : Drain p) : List Byte → Prop
  | rcmd (h : d.st = .rcmd) : Synced d []
  | rlenh {cmd : Byte} (h : d.st = .rlenh) (hcmd : d.rx.rCmd = cmd) (hcrc : d.rx.crcRx = crcOf [cmd]) :
      Synced d [cmd]
  | rlenl {cmd lh : Byte} (h : d.st = .rlenl) (hcmd : d.rx.rCmd = cmd)
      (hlen : d.rx.rLen.extractLsb' 8 8 = lh) (hcrc : d.rx.crcRx = crcOf [cmd, lh]) : Synced d [cmd, lh]
  | rpay {cmd lh ll : Byte} {payload : List Byte} (h : d.st = .rpay) (hd : d.Header cmd lh ll payload)
      (hlt : payload.length < (lh ++ ll).toNat) (hidx : d.rx.pidx = BitVec.ofNat 4 payload.length) :
      Synced d (cmd :: lh :: ll :: payload)
  | rcrch {cmd lh ll : Byte} {payload : List Byte} (h : d.st = .rcrch) (hd : d.Header cmd lh ll payload)
      (hlen : payload.length = (lh ++ ll).toNat) : Synced d (cmd :: lh :: ll :: payload)
  | rcrcl {cmd lh ll ch : Byte} {payload : List Byte} (h : d.st = .rcrcl)
      (hd : d.Header cmd lh ll payload) (hlen : payload.length = (lh ++ ll).toNat)
      (hgot : d.rx.crcRxGot.extractLsb' 8 8 = ch) : Synced d (cmd :: lh :: ll :: (payload ++ [ch]))

/-- The engine has received `l` since the last request. -/
inductive Receiving (d : Drain p) (l : List Byte) : Prop
  | hunt (h : d.st = .hunt) (hl : hunt l = none) (hlast : l.getLast? ≠ some scopeSync0)
  | sync1 (h : d.st = .sync1) (hl : hunt l = none) (hlast : l.getLast? = some scopeSync0)
  | synced {got : List Byte} (hl : Protocol.hunt l = some got) (h : Synced d got)

/-- The engine has received a whole request. -/
def Received (d : Drain p) : Request → Prop
  | .oversized => d.NakReady scopeNakBadLen
  | .frame cmd payload crc => d.Ready cmd payload crc

/-! ### No request yet -/

theorem Synced.request_none {got : List Byte} (h : Synced d got) : request got = none := by
  cases h with
  | rcmd | rlenh | rlenl => rfl
  | @rpay cmd lh ll payload _ hd hlt =>
    have hle := hd.len_le
    simp only [request, show ¬ 8 < (lh ++ ll).toNat by omega, ↓reduceIte,
      List.drop_eq_nil_of_le (Nat.le_of_lt hlt)]
  | @rcrch cmd lh ll payload _ hd hlen =>
    have hle := hd.len_le
    simp only [request, show ¬ 8 < (lh ++ ll).toNat by omega, ↓reduceIte,
      List.drop_eq_nil_of_le (Nat.le_of_eq hlen)]
  | @rcrcl cmd lh ll ch payload _ hd hlen =>
    have hle := hd.len_le
    simp only [request, show ¬ 8 < (lh ++ ll).toNat by omega, ↓reduceIte]
    rw [← hlen, List.drop_left]

theorem Receiving.parse_eq {l : List Byte} (h : Receiving d l) : parse l = ([], l) := by
  refine parse_none ?_
  cases h with
  | hunt _ hl | sync1 _ hl => rw [next, hl, Option.bind_none]
  | synced hl h => rw [next, hl, Option.bind_some, h.request_none]

theorem Receiving.rxReady {l : List Byte} (h : Receiving d l) : d.rxReady = true := by
  cases h with
  | hunt h | sync1 h => rw [Drain.rxReady, h]
  | synced _ h => cases h with | _ h => rw [Drain.rxReady, h]

/-- A receiving engine waits for a byte. -/
theorem step_silent {i : DrainIn} (h : d.rxReady = true) (hv : i.rxValid = false) : d.step i = d := by
  unfold Drain.rxReady at h
  unfold step
  cases hs : d.st with
  | hunt | sync1 | rcmd | rlenh | rlenl | rpay | rcrch | rcrcl => simp [hv]
  | _ => simp [hs] at h

/-! ### One more byte -/

theorem crcOf_snoc (l : List Byte) (b : Byte) : crcOf (l ++ [b]) = crc16CcittByte (crcOf l) b :=
  crcOf_append l [b]

/-- The payload after one more byte, with `pidx` on its way. -/
theorem Header.pbuf_snoc {cmd lh ll : Byte} {payload : List Byte} (hd : d.Header cmd lh ll payload)
    (hlt : payload.length < 8) (hidx : d.rx.pidx = BitVec.ofNat 4 payload.length) (b : Byte)
    (k : Fin 8) (hk : k.val < (payload ++ [b]).length) : (payload ++ [b])[k.val]? =
      some (Function.update d.rx.pbuf (d.rx.pidx.setWidth 3).toFin b k) := by
  have hfin : (d.rx.pidx.setWidth 3).toFin.val = payload.length := by
    rw [hidx]
    change payload.length % 16 % 8 = _
    omega
  rw [List.length_append, List.length_singleton] at hk
  rcases Nat.lt_or_ge k.val payload.length with hlt' | hge
  · rw [List.getElem?_append_left hlt', hd.pbuf k hlt', Function.update_of_ne]
    intro he
    rw [he, hfin] at hlt'
    omega
  · have he : k = (d.rx.pidx.setWidth 3).toFin := Fin.ext (by omega)
    rw [he, Function.update_self, hfin, List.getElem?_concat_length]

/-- The second length byte decides how the request goes on. -/
theorem Synced.step_rlenl {cmd lh : Byte} {i : DrainIn} (h : d.st = .rlenl) (hcmd : d.rx.rCmd = cmd)
    (hlen : d.rx.rLen.extractLsb' 8 8 = lh) (hcrc : d.rx.crcRx = crcOf [cmd, lh])
    (hv : i.rxValid = true) : Synced (d.step i) ([cmd, lh] ++ [i.rxData]) ∨
      ∃ r, request ([cmd, lh] ++ [i.rxData]) = some (r, []) ∧ Received (d.step i) r := by
  have hcrc' : crc16CcittByte d.rx.crcRx i.rxData = crcOf [cmd, lh, i.rxData] := by rw [hcrc]; rfl
  have h8 : 8 < (lh ++ i.rxData : BitVec 16) ↔ 8 < (lh ++ i.rxData).toNat := Iff.rfl
  have h0 : (lh ++ i.rxData : BitVec 16) = 0 ↔ (lh ++ i.rxData).toNat = 0 :=
    ⟨fun he => congrArg BitVec.toNat he, fun he => BitVec.eq_of_toNat_eq he⟩
  have hnil : ∀ k : Fin 8, k.val < ([] : List Byte).length →
      ([] : List Byte)[k.val]? = some (d.rx.pbuf k) := fun k hk => absurd hk (Nat.not_lt_zero _)
  rw [step, h]
  dsimp only
  rw [if_pos hv, hlen, hcrc']
  rcases Nat.lt_or_ge 8 (lh ++ i.rxData).toNat with hbig | hle
  · right
    rw [if_pos (h8.mpr hbig)]
    refine ⟨.oversized, if_pos hbig, ⟨rfl, rfl, rfl, rfl, rfl, rfl, ?_⟩⟩
    exact Function.update_self 0 scopeNakBadLen d.rx.pbuf
  · left
    rw [if_neg (mt h8.mp (by omega))]
    by_cases hz : (lh ++ i.rxData).toNat = 0
    · rw [if_pos (h0.mpr hz)]
      exact .rcrch rfl ⟨hcmd, rfl, hle, hnil, rfl⟩ hz.symm
    · rw [if_neg (mt h0.mp hz)]
      exact .rpay rfl ⟨hcmd, rfl, hle, hnil, rfl⟩ (Nat.pos_of_ne_zero hz) rfl

/-- A payload byte. -/
theorem Synced.step_rpay {cmd lh ll : Byte} {payload : List Byte} {i : DrainIn} (h : d.st = .rpay)
    (hd : d.Header cmd lh ll payload) (hlt : payload.length < (lh ++ ll).toNat)
    (hidx : d.rx.pidx = BitVec.ofNat 4 payload.length) (hv : i.rxValid = true) :
    Synced (d.step i) (cmd :: lh :: ll :: (payload ++ [i.rxData])) := by
  have hle := hd.len_le
  have hcrc : crc16CcittByte d.rx.crcRx i.rxData = crcOf (cmd :: lh :: ll :: (payload ++ [i.rxData])) := by
    rw [hd.crcRx, ← crcOf_snoc]
    rfl
  have hpidx : d.rx.pidx.toNat = payload.length := by
    rw [hidx, BitVec.toNat_ofNat]
    exact Nat.mod_eq_of_lt (by omega)
  have hlen : d.rx.rLen.toNat = (lh ++ ll).toNat := congrArg BitVec.toNat hd.rLen
  have hd' : ∀ st, Header { d with
      rx.pbuf := Function.update d.rx.pbuf (d.rx.pidx.setWidth 3).toFin i.rxData
      rx.crcRx := crc16CcittByte d.rx.crcRx i.rxData, rx.pidx := d.rx.pidx + 1, st := st }
      cmd lh ll (payload ++ [i.rxData]) :=
    fun st => ⟨hd.rCmd, hd.rLen, hle, hd.pbuf_snoc (by omega) hidx i.rxData, hcrc⟩
  rw [step, h]
  dsimp only
  rw [if_pos hv, hlen, hpidx]
  rcases Nat.lt_or_ge (payload.length + 1) (lh ++ ll).toNat with hmore | hlast
  · rw [if_neg (by omega)]
    refine .rpay rfl (hd' .rpay) (by rwa [List.length_append]) ?_
    change d.rx.pidx + 1 = _
    rw [hidx, List.length_append, List.length_singleton, BitVec.ofNat_add]
    rfl
  · rw [if_pos hlast]
    exact .rcrch rfl (hd' .rcrch) (by rw [List.length_append, List.length_singleton]; omega)

/-- The last byte of a request. -/
theorem Synced.step_rcrcl {cmd lh ll ch : Byte} {payload : List Byte} {i : DrainIn}
    (h : d.st = .rcrcl) (hd : d.Header cmd lh ll payload) (hlen : payload.length = (lh ++ ll).toNat)
    (hgot : d.rx.crcRxGot.extractLsb' 8 8 = ch) (hv : i.rxValid = true) :
    ∃ r, request (cmd :: lh :: ll :: (payload ++ [ch]) ++ [i.rxData]) = some (r, []) ∧
      Received (d.step i) r := by
  have hle := hd.len_le
  refine ⟨.frame cmd payload (ch ++ i.rxData), ?_, ?_⟩
  · simp only [List.cons_append, List.append_assoc, request, show ¬ 8 < (lh ++ ll).toNat by omega,
      ↓reduceIte]
    rw [← hlen, List.drop_left, List.take_left]
    rfl
  · have hr : Ready { d with
        rx.crcRxGot := d.rx.crcRxGot.extractLsb' 8 8 ++ i.rxData, st := .dispatch }
        cmd payload (ch ++ i.rxData) := by
      refine ⟨rfl, hd.rCmd, ?_, by omega, hd.pbuf, ?_, ?_⟩
      · change d.rx.rLen = _
        rw [hd.rLen, hlen, BitVec.ofNat_toNat, BitVec.setWidth_eq]
      · change d.rx.crcRx = _
        rw [hd.crcRx, body_eq hlen]
      · change (d.rx.crcRxGot.extractLsb' 8 8 ++ i.rxData : BitVec 16) = _
        rw [hgot]
    rw [step, h]
    dsimp only
    rw [if_pos hv]
    exact hr

/-- A byte extends the received part of a frame or completes the request. -/
theorem Synced.step {got : List Byte} {i : DrainIn} (h : Synced d got) (hv : i.rxValid = true) :
    Synced (d.step i) (got ++ [i.rxData]) ∨
      ∃ r, request (got ++ [i.rxData]) = some (r, []) ∧ Received (d.step i) r := by
  cases h with
  | rcmd h =>
    left
    rw [Drain.step, h]
    dsimp only
    rw [if_pos hv]
    exact .rlenh rfl rfl rfl
  | rlenh h hcmd hcrc =>
    left
    rw [Drain.step, h]
    dsimp only
    rw [if_pos hv, hcrc]
    exact .rlenl rfl hcmd (hi_append _ _) rfl
  | rlenl h hcmd hlen hcrc => exact step_rlenl h hcmd hlen hcrc hv
  | rpay h hd hlt hidx => exact Or.inl (step_rpay h hd hlt hidx hv)
  | rcrch h hd hlen =>
    left
    rw [Drain.step, h]
    dsimp only
    rw [if_pos hv]
    exact .rcrcl rfl ⟨hd.rCmd, hd.rLen, hd.len_le, hd.pbuf, hd.crcRx⟩ hlen (hi_append _ _)
  | rcrcl h hd hlen hgot => exact Or.inr (step_rcrcl h hd hlen hgot hv)

/-- A receiving engine follows the request grammar byte by byte. -/
theorem Receiving.step {l : List Byte} {i : DrainIn} (h : Receiving d l) (hv : i.rxValid = true) :
    Receiving (d.step i) (l ++ [i.rxData]) ∨
      ∃ r, next (l ++ [i.rxData]) = some (r, []) ∧ Received (d.step i) r := by
  cases h with
  | hunt h hl hlast =>
    left
    have hnone : Protocol.hunt (l ++ [i.rxData]) = none := by
      rw [hunt_snoc hl, if_neg (fun hx => hlast hx.1)]
    rw [Drain.step, h]
    dsimp only
    by_cases h0 : i.rxData = scopeSync0
    · rw [if_pos (by rw [hv, h0]; rfl)]
      exact .sync1 rfl hnone (by rw [List.getLast?_concat, h0])
    · rw [if_neg (by rw [hv, beq_eq_false_iff_ne.mpr h0]; decide)]
      refine .hunt h hnone ?_
      rw [List.getLast?_concat]
      exact fun he => h0 (Option.some.inj he)
  | sync1 h hl hlast =>
    left
    rw [Drain.step, h]
    dsimp only
    rw [if_pos hv]
    by_cases h1 : i.rxData = scopeSync1
    · have hsome : Protocol.hunt (l ++ [i.rxData]) = some [] := by rw [hunt_snoc hl, if_pos ⟨hlast, h1⟩]
      rw [if_pos (by rw [h1]; rfl)]
      exact .synced hsome (.rcmd rfl)
    · have hnone : Protocol.hunt (l ++ [i.rxData]) = none := by
        rw [hunt_snoc hl, if_neg (fun hx => h1 hx.2)]
      rw [if_neg (by rw [beq_eq_false_iff_ne.mpr h1]; decide)]
      by_cases h0 : i.rxData = scopeSync0
      · rw [if_neg (by rw [h0]; decide)]
        exact .sync1 h hnone (by rw [List.getLast?_concat, h0])
      · rw [if_pos (bne_iff_ne.mpr h0)]
        refine .hunt rfl hnone ?_
        rw [List.getLast?_concat]
        exact fun he => h0 (Option.some.inj he)
  | synced hl h =>
    have hgot := hunt_append hl [i.rxData]
    rcases h.step hv with hs | ⟨r, hreq, hr⟩
    · exact Or.inl (.synced hgot hs)
    · exact Or.inr ⟨r, by rw [next, hgot, Option.bind_some, hreq], hr⟩

end FpgaScope.Drain
