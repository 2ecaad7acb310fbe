import FpgaScope.Host.Frame

/-! `parse_frame` and `parse_all` of the host package, against a left-to-right scan for
complete frames. Where no frame is cut by the end of the buffer the two agree; at a cut
frame `parse_all` stops, the scan goes on. -/

namespace FpgaScope.Host

structure Frame where
  cmd : Byte
  payload : List Byte
  deriving DecidableEq, Repr

/-- The bytes of a frame on the wire. -/
def Frame.wire (f : Frame) : List Byte := frame f.cmd f.payload

inductive FrameError where
  | truncatedHeader | truncatedPayload | crc | noSync
  deriving DecidableEq, Repr

def FrameError.message : FrameError → String
  | .truncatedHeader => "truncated header"
  | .truncatedPayload => "truncated payload/crc"
  | .crc => "crc"
  | .noSync => "no sync found"

/-! ### The parser -/

/-- `buf[i]`, read inside the buffer only. -/
def byteAt (buf : List Byte) (i : ℕ) : Byte := buf.getD i 0

/-- `buf[i:j]`. -/
def slice (buf : List Byte) (i j : ℕ) : List Byte := (buf.drop i).take (j - i)

def syncAt (buf : List Byte) (i : ℕ) : Bool :=
  byteAt buf i == scopeSync0 && byteAt buf (i + 1) == scopeSync1

/-- `(buf[i + 3] << 8) | buf[i + 4]`. -/
def plenAt (buf : List Byte) (i : ℕ) : ℕ :=
  (byteAt buf (i + 3)).toNat <<< 8 ||| (byteAt buf (i + 4)).toNat

/-- What `parse_frame` does once it has hit the sync at `i`. -/
def frameAt (buf : List Byte) (i : ℕ) : Except FrameError (Frame × ℕ) :=
  if i + 5 > buf.length then .error .truncatedHeader
  else
    let plen := plenAt buf i
    let stop := i + 5 + plen + 2
    if stop > buf.length then .error .truncatedPayload
    else
      let crcRx := (byteAt buf (i + 5 + plen)).toNat <<< 8 ||| (byteAt buf (i + 6 + plen)).toNat
      if crc16Ccitt (slice buf (i + 2) (i + 5 + plen)) 0xFFFF ≠ crcRx then .error .crc
      else .ok (⟨byteAt buf (i + 2), slice buf (i + 5) (i + 5 + plen)⟩, stop)

/-- `parse_frame`: the frame at the first sync from `offset` on, and where it ends. -/
def parseFrame (buf : List Byte) (offset : ℕ) : Except FrameError (Frame × ℕ) :=
  if offset + 1 < buf.length then
    if syncAt buf offset then frameAt buf offset else parseFrame buf (offset + 1)
  else .error .noSync
termination_by buf.length - offset

theorem frameAt_next {buf : List Byte} {i : ℕ} {fr : Frame} {next : ℕ}
    (h : frameAt buf i = .ok (fr, next)) : i < next ∧ next ≤ buf.length := by
  unfold frameAt at h
  split at h
  · cases h
  · simp only at h
    split at h
    · cases h
    · split at h
      · cases h
      · cases h
        omega

theorem parseFrame_next {buf : List Byte} {off : ℕ} {fr : Frame} {next : ℕ}
    (h : parseFrame buf off = .ok (fr, next)) : off < next ∧ next ≤ buf.length := by
  induction off using parseFrame.induct buf with
  | case1 off hlt hs =>
    rw [parseFrame, if_pos hlt, if_pos hs] at h
    exact frameAt_next h
  | case2 off hlt hs ih =>
    rw [parseFrame, if_pos hlt, if_neg hs] at h
    have := ih h
    omega
  | case3 off hlt =>
    rw [parseFrame, if_neg hlt] at h
    cases h

/-- The loop of `parse_all` from `off` on. A bad CRC skips two bytes, any other error ends it. -/
def parseAllFrom (buf : List Byte) (off : ℕ) : List Frame :=
  if off + 1 < buf.length then
    match h : parseFrame buf off with
    | .ok (fr, next) => fr :: parseAllFrom buf next
    | .error e => if e.message = "crc" then parseAllFrom buf (off + 2) else []
  else []
termination_by buf.length - off
decreasing_by
  · have := parseFrame_next h
    omega
  · omega

def parseAll (buf : List Byte) : List Frame := parseAllFrom buf 0

/-! ### One position at a time -/

variable {buf : List Byte} {off : ℕ}

theorem parseFrame_sync (hlt : off + 1 < buf.length) (hs : syncAt buf off = true) :
    parseFrame buf off = frameAt buf off := by
  rw [parseFrame, if_pos hlt, if_pos hs]

theorem parseFrame_skip (hlt : off + 1 < buf.length) (hs : syncAt buf off = false) :
    parseFrame buf off = parseFrame buf (off + 1) := by
  rw [parseFrame, if_pos hlt, if_neg (by simp [hs])]

theorem parseAllFrom_short (h : buf.length ≤ off + 1) : parseAllFrom buf off = [] := by
  rw [parseAllFrom, if_neg (by omega)]

theorem parseAllFrom_ok {fr : Frame} {next : ℕ} (h : parseFrame buf off = .ok (fr, next)) :
    parseAllFrom buf off = fr :: parseAllFrom buf next := by
  have hlt : off + 1 < buf.length := by
    by_contra hlt
    rw [parseFrame, if_neg hlt] at h
    cases h
  rw [parseAllFrom, if_pos hlt]
  split
  · next heq =>
    rw [h] at heq
    cases heq
    rfl
  · next heq =>
    rw [h] at heq
    cases heq

theorem parseAllFrom_error {e : FrameError} (h : parseFrame buf off = .error e) :
    parseAllFrom buf off = if e = .crc then parseAllFrom buf (off + 2) else [] := by
  have hcrc : e.message = "crc" ↔ e = .crc := by
    cases e <;> decide
  by_cases hlt : off + 1 < buf.length
  · rw [parseAllFrom, if_pos hlt]
    split
    · next heq =>
      rw [h] at heq
      cases heq
    · next heq =>
      rw [h] at heq
      cases heq
      simp only [hcrc]
  · rw [parseFrame, if_neg hlt] at h
    cases h
    rw [parseAllFrom_short (by omega), if_neg (by decide)]

/-- The byte after a sync starts none. -/
theorem syncAt_succ (hs : syncAt buf off = true) : syncAt buf (off + 1) = false := by
  rw [syncAt, Bool.and_eq_true, beq_iff_eq, beq_iff_eq] at hs
  rw [syncAt, hs.2]
  rfl

/-- A bad CRC moves on by two bytes from where the hunt began, which passes no sync. -/
theorem parseAllFrom_skip (hs : syncAt buf off = false) :
    parseAllFrom buf off = parseAllFrom buf (off + 1) := by
  induction hn : buf.length - off using Nat.strong_induction_on generalizing off with
  | _ n ih =>
    by_cases hlt : off + 1 < buf.length
    · have hframe := parseFrame_skip hlt hs
      cases h : parseFrame buf (off + 1) with
      | ok r =>
        obtain ⟨fr, next⟩ := r
        rw [parseAllFrom_ok (hframe.trans h), parseAllFrom_ok h]
      | error e =>
        rw [parseAllFrom_error (hframe.trans h)]
        by_cases hcrc : e = .crc
        · rw [if_pos hcrc]
          cases hnext : syncAt buf (off + 1) with
          | true =>
            rw [parseAllFrom_error h, if_pos hcrc]
            exact ih _ (by omega) (syncAt_succ hnext) rfl
          | false => exact (ih _ (by omega) hnext rfl).symm
        · rw [parseAllFrom_error h, if_neg hcrc, if_neg hcrc]
    · rw [parseAllFrom_short (by omega), parseAllFrom_short (by omega)]

/-- After a bad CRC at a sync the hunt goes on with the next byte. -/
theorem parseAllFrom_crc (hlt : off + 1 < buf.length) (hs : syncAt buf off = true)
    (h : frameAt buf off = .error .crc) : parseAllFrom buf off = parseAllFrom buf (off + 1) := by
  rw [parseAllFrom_error ((parseFrame_sync hlt hs).trans h), if_pos rfl,
    parseAllFrom_skip (syncAt_succ hs)]

/-! ### Complete frames -/

/-- The complete frame with a matching CRC that a byte string starts with, if it does. -/
def leading : List Byte → Option Frame
  | s0 :: s1 :: cmd :: lh :: ll :: rest =>
    let fr : Frame := ⟨cmd, rest.take (lh ++ ll).toNat⟩
    if fr.wire <+: s0 :: s1 :: cmd :: lh :: ll :: rest then some fr else none
  | _ => none

theorem Frame.wire_eq (fr : Frame) : fr.wire = scopeSync0 :: scopeSync1 :: fr.cmd ::
    hi (BitVec.ofNat 16 fr.payload.length) :: lo (BitVec.ofNat 16 fr.payload.length) ::
      (fr.payload ++ [hi (crcOf (body fr.cmd fr.payload)), lo (crcOf (body fr.cmd fr.payload))]) := rfl

theorem Frame.wire_length (fr : Frame) : fr.wire.length = fr.payload.length + 7 := by
  rw [fr.wire_eq]
  simp

/-- A frame as `build_frame` gives it, with anything behind it. -/
theorem leading_iff {bytes : List Byte} {fr : Frame} :
    leading bytes = some fr ↔ fr.payload.length ≤ 0xFFFF ∧ fr.wire <+: bytes := by
  constructor
  · intro h
    unfold leading at h
    split at h
    · next s0 s1 cmd lh ll rest =>
      simp only at h
      split at h
      · next hpre =>
        obtain rfl := Option.some.inj h
        have hlt := (lh ++ ll : BitVec 16).isLt
        refine ⟨?_, hpre⟩
        simp only [List.length_take]
        omega
      · cases h
    · cases h
  · rintro ⟨hlen, t, rfl⟩
    have hplen : (hi (BitVec.ofNat 16 fr.payload.length) ++ lo (BitVec.ofNat 16 fr.payload.length) :
        BitVec 16).toNat = fr.payload.length := by
      rw [hi_append_lo, BitVec.toNat_ofNat]
      exact Nat.mod_eq_of_lt (by omega)
    have hwire : fr.wire ++ t = scopeSync0 :: scopeSync1 :: fr.cmd ::
        hi (BitVec.ofNat 16 fr.payload.length) :: lo (BitVec.ofNat 16 fr.payload.length) ::
          (fr.payload ++ ([hi (crcOf (body fr.cmd fr.payload)), lo (crcOf (body fr.cmd fr.payload))] ++ t)) := by
      rw [fr.wire_eq]
      simp
    rw [hwire, leading]
    simp only [hplen, List.take_left]
    rw [if_pos ⟨t, hwire⟩]

theorem crc_eq_iff {x : BitVec 16} {ch cl : Byte} :
    x.toNat = ch.toNat <<< 8 ||| cl.toNat ↔ hi x = ch ∧ lo x = cl := by
  rw [← BitVec.toNat_append, BitVec.toNat_inj]
  constructor
  · rintro rfl
    exact ⟨hi_append ch cl, lo_append ch cl⟩
  · rintro ⟨rfl, rfl⟩
    exact (hi_append_lo x).symm

/-- The byte string from a sync on, when all of the frame is there. -/
theorem leading_whole {cmd lh ll ch cl : Byte} {payload rest : List Byte}
    (hlen : payload.length = (lh ++ ll : BitVec 16).toNat) :
    leading (scopeSync0 :: scopeSync1 :: cmd :: lh :: ll :: (payload ++ ch :: cl :: rest)) =
      if crc16Ccitt (cmd :: lh :: ll :: payload) 0xFFFF = ch.toNat <<< 8 ||| cl.toNat then
        some ⟨cmd, payload⟩ else none := by
  have hof : BitVec.ofNat 16 payload.length = lh ++ ll := by
    rw [hlen, BitVec.ofNat_toNat, BitVec.setWidth_eq]
  have hcrc : crc16Ccitt (cmd :: lh :: ll :: payload) 0xFFFF = ch.toNat <<< 8 ||| cl.toNat ↔
      hi (crcOf (body cmd payload)) = ch ∧ lo (crcOf (body cmd payload)) = cl := by
    rw [crc16Ccitt_eq, crc_eq_iff, body_eq hlen]
  rw [leading]
  simp only [← hlen, List.take_left, Frame.wire_eq, List.cons_prefix_cons, hof, hi_append, lo_append,
    true_and, List.prefix_append_right_inj, List.nil_prefix, and_true, hcrc]

/-- The byte string from a sync on, when the end of the frame is missing. -/
theorem leading_cut {cmd lh ll : Byte} {rest : List Byte}
    (h : rest.length < (lh ++ ll : BitVec 16).toNat + 2) :
    leading (scopeSync0 :: scopeSync1 :: cmd :: lh :: ll :: rest) = none := by
  rw [Option.eq_none_iff_forall_not_mem]
  intro fr hfr
  obtain ⟨hlen, hpre⟩ := leading_iff.mp hfr
  have hle := hpre.length_le
  rw [fr.wire_eq] at hpre
  simp only [List.cons_prefix_cons] at hpre
  obtain ⟨-, -, -, rfl, rfl, -⟩ := hpre
  rw [fr.wire_length] at hle
  rw [hi_append_lo, BitVec.toNat_ofNat, Nat.mod_eq_of_lt (by omega)] at h
  simp only [List.length_cons] at hle
  omega

/-! ### Positions of a buffer -/

/-- At `i` a frame begins that the end of the buffer cuts off. -/
def CutAt (buf : List Byte) (i : ℕ) : Prop :=
  i + 1 < buf.length ∧ syncAt buf i = true ∧ buf.length < i + 7 + plenAt buf i

variable {i : ℕ}

theorem drop_byteAt (h : i < buf.length) : buf.drop i = byteAt buf i :: buf.drop (i + 1) := by
  rw [List.drop_eq_getElem_cons h, byteAt, List.getD_eq_getElem _ _ h]

theorem drop_sync (hlt : i + 1 < buf.length) (hs : syncAt buf i = true) :
    buf.drop i = scopeSync0 :: scopeSync1 :: buf.drop (i + 2) := by
  rw [syncAt, Bool.and_eq_true, beq_iff_eq, beq_iff_eq] at hs
  rw [drop_byteAt (by omega), drop_byteAt hlt, hs.1, hs.2]

theorem drop_header (h : i + 5 ≤ buf.length) :
    buf.drop (i + 2) = byteAt buf (i + 2) :: byteAt buf (i + 3) :: byteAt buf (i + 4) :: buf.drop (i + 5) := by
  rw [drop_byteAt (by omega), drop_byteAt (show i + 2 + 1 < _ by omega),
    drop_byteAt (show i + 2 + 1 + 1 < _ by omega)]

theorem plenAt_eq (buf : List Byte) (i : ℕ) :
    (byteAt buf (i + 3) ++ byteAt buf (i + 4) : BitVec 16).toNat = plenAt buf i :=
  BitVec.toNat_append _ _

/-- No frame starts without a sync. -/
theorem leading_unsynced (hs : ¬ (i + 1 < buf.length ∧ syncAt buf i = true)) :
    leading (buf.drop i) = none := by
  rw [Option.eq_none_iff_forall_not_mem]
  intro fr hfr
  obtain ⟨-, t, ht⟩ := leading_iff.mp hfr
  rw [fr.wire_eq] at ht
  have hlen := congrArg List.length ht
  simp only [List.cons_append, List.length_cons, List.length_drop] at hlen
  have hlt : i + 1 < buf.length := by omega
  refine hs ⟨hlt, ?_⟩
  rw [drop_byteAt (by omega), drop_byteAt hlt] at ht
  simp only [List.cons_append, List.cons.injEq] at ht
  rw [syncAt, ← ht.1, ← ht.2.1]
  rfl

theorem CutAt.leading_none (h : CutAt buf i) : leading (buf.drop i) = none := by
  obtain ⟨hlt, hs, hcut⟩ := h
  rw [drop_sync hlt hs]
  by_cases hlen : i + 5 ≤ buf.length
  · rw [drop_header hlen]
    exact leading_cut (by rw [plenAt_eq, List.length_drop]; omega)
  · rw [Option.eq_none_iff_forall_not_mem]
    intro fr hfr
    have hle := (leading_iff.mp hfr).2.length_le
    rw [fr.wire_length] at hle
    simp only [List.length_cons, List.length_drop] at hle
    omega

theorem CutAt.frameAt_error (h : CutAt buf i) : ∃ e, e ≠ .crc ∧ frameAt buf i = .error e := by
  obtain ⟨-, -, hcut⟩ := h
  by_cases hlen : buf.length < i + 5
  · exact ⟨.truncatedHeader, by decide, by rw [frameAt, if_pos hlen]⟩
  · refine ⟨.truncatedPayload, by decide, ?_⟩
    rw [frameAt, if_neg hlen]
    exact if_pos (by omega)

/-- A frame that is not cut off is taken when its CRC matches. -/
theorem frameAt_whole (hlt : i + 1 < buf.length) (hs : syncAt buf i = true)
    (hwhole : i + 7 + plenAt buf i ≤ buf.length) : frameAt buf i =
      match leading (buf.drop i) with
      | some fr => .ok (fr, i + fr.wire.length)
      | none => .error .crc := by
  have hpay : (slice buf (i + 5) (i + 5 + plenAt buf i)).length = plenAt buf i := by
    rw [slice, List.length_take, List.length_drop]
    omega
  have hbody : slice buf (i + 2) (i + 5 + plenAt buf i) = byteAt buf (i + 2) :: byteAt buf (i + 3) ::
      byteAt buf (i + 4) :: slice buf (i + 5) (i + 5 + plenAt buf i) := by
    rw [slice, slice, drop_header (by omega), show i + 5 + plenAt buf i - (i + 2) = plenAt buf i + 3 by omega,
      show i + 5 + plenAt buf i - (i + 5) = plenAt buf i by omega]
    rfl
  have hrest : buf.drop (i + 5) = slice buf (i + 5) (i + 5 + plenAt buf i) ++
      byteAt buf (i + 5 + plenAt buf i) :: byteAt buf (i + 6 + plenAt buf i) ::
        buf.drop (i + 7 + plenAt buf i) := by
    have htail : buf.drop (i + 5 + plenAt buf i) = byteAt buf (i + 5 + plenAt buf i) ::
        byteAt buf (i + 6 + plenAt buf i) :: buf.drop (i + 7 + plenAt buf i) := by
      rw [drop_byteAt (by omega), drop_byteAt (by omega),
        show i + 5 + plenAt buf i + 1 = i + 6 + plenAt buf i by omega,
        show i + 6 + plenAt buf i + 1 = i + 7 + plenAt buf i by omega]
    have hsplit := List.take_append_drop (plenAt buf i) (buf.drop (i + 5))
    rw [List.drop_drop] at hsplit
    rw [← htail, slice, show i + 5 + plenAt buf i - (i + 5) = plenAt buf i by omega, hsplit]
  have hlead : leading (buf.drop i) =
      if crc16Ccitt (slice buf (i + 2) (i + 5 + plenAt buf i)) 0xFFFF =
          (byteAt buf (i + 5 + plenAt buf i)).toNat <<< 8 ||| (byteAt buf (i + 6 + plenAt buf i)).toNat then
        some ⟨byteAt buf (i + 2), slice buf (i + 5) (i + 5 + plenAt buf i)⟩ else none := by
    rw [drop_sync hlt hs, drop_header (by omega), hrest,
      leading_whole (hpay.trans (plenAt_eq buf i).symm), hbody]
  rw [hlead, frameAt, if_neg (by omega)]
  simp only
  rw [if_neg (by omega)]
  by_cases hcrc : crc16Ccitt (slice buf (i + 2) (i + 5 + plenAt buf i)) 0xFFFF =
      (byteAt buf (i + 5 + plenAt buf i)).toNat <<< 8 ||| (byteAt buf (i + 6 + plenAt buf i)).toNat
  · rw [if_neg (not_not.mpr hcrc), if_pos hcrc]
    simp only [Frame.wire_length, hpay]
    rw [show i + 5 + plenAt buf i + 2 = i + (plenAt buf i + 7) by omega]
  · rw [if_pos hcrc, if_neg hcrc]

/-- `parse_frame` takes the frame at the first sync, when it is complete and its CRC matches. -/
theorem parseFrame_ok_iff {fr : Frame} {next : ℕ} : parseFrame buf off = .ok (fr, next) ↔
    ∃ i, off ≤ i ∧ (∀ j, off ≤ j → j < i → syncAt buf j = false) ∧ leading (buf.drop i) = some fr ∧
      next = i + fr.wire.length := by
  induction off using parseFrame.induct buf with
  | case1 off hlt hs =>
    rw [parseFrame_sync hlt hs]
    have hhere : frameAt buf off = .ok (fr, next) ↔
        leading (buf.drop off) = some fr ∧ next = off + fr.wire.length := by
      by_cases hwhole : off + 7 + plenAt buf off ≤ buf.length
      · rw [frameAt_whole hlt hs hwhole]
        cases leading (buf.drop off) with
        | none => simp
        | some fr' => simp only [Except.ok.injEq, Prod.mk.injEq, Option.some.injEq]; grind
      · have hcut : CutAt buf off := ⟨hlt, hs, by omega⟩
        obtain ⟨e, -, he⟩ := hcut.frameAt_error
        rw [he, hcut.leading_none]
        simp
    rw [hhere]
    refine ⟨fun h => ⟨off, le_rfl, fun j _ _ => by omega, h⟩, fun ⟨i, hle, hno, h⟩ => ?_⟩
    rcases Nat.eq_or_lt_of_le hle with rfl | hlt'
    · exact h
    · rw [hno off le_rfl hlt'] at hs
      cases hs
  | case2 off hlt hs ih =>
    have hs' : syncAt buf off = false := by simpa using hs
    rw [parseFrame_skip hlt hs', ih]
    refine ⟨fun ⟨i, hle, hno, h⟩ => ⟨i, by omega, fun j hj hji => ?_, h⟩, fun ⟨i, hle, hno, h⟩ => ?_⟩
    · rcases Nat.eq_or_lt_of_le hj with rfl | hlt'
      · exact hs'
      · exact hno j hlt' hji
    · rcases Nat.eq_or_lt_of_le hle with rfl | hlt'
      · rw [leading_unsynced (by simp [hs'])] at h
        cases h.1
      · exact ⟨i, hlt', fun j hj hji => hno j (by omega) hji, h⟩
  | case3 off hlt =>
    rw [parseFrame, if_neg hlt]
    refine iff_of_false (by simp) fun ⟨i, hle, _, h, _⟩ => ?_
    rw [leading_unsynced (fun hs => by have := hs.1; omega)] at h
    cases h

/-! ### One position of the loop -/

theorem parseAllFrom_found {fr : Frame} (h : leading (buf.drop i) = some fr) :
    parseAllFrom buf i = fr :: parseAllFrom buf (i + fr.wire.length) := by
  by_cases hsync : i + 1 < buf.length ∧ syncAt buf i = true
  · obtain ⟨hlt, hs⟩ := hsync
    by_cases hwhole : i + 7 + plenAt buf i ≤ buf.length
    · have hframe := frameAt_whole hlt hs hwhole
      rw [h] at hframe
      exact parseAllFrom_ok ((parseFrame_sync hlt hs).trans hframe)
    · rw [CutAt.leading_none ⟨hlt, hs, by omega⟩] at h
      cases h
  · rw [leading_unsynced hsync] at h
    cases h

/-- No frame starts here, and none is cut off: the loop goes on with the next byte. -/
theorem parseAllFrom_quiet (h : leading (buf.drop i) = none) (hcut : ¬ CutAt buf i) :
    parseAllFrom buf i = parseAllFrom buf (i + 1) := by
  by_cases hlt : i + 1 < buf.length
  · cases hs : syncAt buf i with
    | false => exact parseAllFrom_skip hs
    | true =>
      have hwhole : i + 7 + plenAt buf i ≤ buf.length := by
        by_contra hlong
        exact hcut ⟨hlt, hs, by omega⟩
      have hframe := frameAt_whole hlt hs hwhole
      rw [h] at hframe
      exact parseAllFrom_crc hlt hs hframe
  · rw [parseAllFrom_short (by omega), parseAllFrom_short (by omega)]

theorem parseAllFrom_cut (h : CutAt buf i) : parseAllFrom buf i = [] := by
  obtain ⟨e, he, hframe⟩ := h.frameAt_error
  rw [parseAllFrom_error ((parseFrame_sync h.1 h.2.1).trans hframe), if_neg he]

theorem byteAt_drop (buf : List Byte) (i k : ℕ) : byteAt (buf.drop i) k = byteAt buf (i + k) := by
  rw [byteAt, byteAt, List.getD_eq_getElem?_getD, List.getD_eq_getElem?_getD, List.getElem?_drop]

theorem cutAt_drop (hle : i ≤ buf.length) : CutAt (buf.drop i) 0 ↔ CutAt buf i := by
  have hsync : syncAt (buf.drop i) 0 = syncAt buf i := by
    rw [syncAt, syncAt, byteAt_drop, byteAt_drop]
    rfl
  have hplen : plenAt (buf.drop i) 0 = plenAt buf i := by
    rw [plenAt, plenAt, byteAt_drop, byteAt_drop, Nat.zero_add, Nat.zero_add]
  rw [CutAt, CutAt, hsync, hplen, List.length_drop]
  refine and_congr ?_ (and_congr_right' ?_) <;> omega

/-- The loop looks at nothing before its offset. -/
theorem parseAllFrom_drop (hle : i ≤ buf.length) : parseAllFrom buf i = parseAll (buf.drop i) := by
  rw [parseAll]
  induction hn : buf.length - i using Nat.strong_induction_on generalizing buf i with
  | _ n ih =>
    rcases Nat.eq_or_lt_of_le hle with heq | hlt
    · rw [parseAllFrom_short (by omega), parseAllFrom_short (by rw [List.length_drop]; omega)]
    · have hlen : (buf.drop i).length = n := by rw [List.length_drop, hn]
      have hzero : (buf.drop i).drop 0 = buf.drop i := List.drop_zero
      cases h : leading (buf.drop i) with
      | some fr =>
        have hfit := (leading_iff.mp h).2.length_le
        have hpos := fr.wire_length
        have hhere := @parseAllFrom_found (buf.drop i) 0 fr (hzero.symm ▸ h)
        have hthere : parseAllFrom buf (i + fr.wire.length) = parseAllFrom (buf.drop (i + fr.wire.length)) 0 :=
          ih _ (by omega) (by omega) rfl
        have hrest : parseAllFrom (buf.drop i) fr.wire.length =
            parseAllFrom ((buf.drop i).drop fr.wire.length) 0 := ih _ (by omega) hfit rfl
        rw [parseAllFrom_found h, hhere, Nat.zero_add, hthere, hrest, List.drop_drop]
      | none =>
        by_cases hcut : CutAt buf i
        · rw [parseAllFrom_cut hcut, parseAllFrom_cut ((cutAt_drop hle).mpr hcut)]
        · have hhere := @parseAllFrom_quiet (buf.drop i) 0 (hzero.symm ▸ h) (mt (cutAt_drop hle).mp hcut)
          have hthere : parseAllFrom buf (i + 1) = parseAllFrom (buf.drop (i + 1)) 0 :=
            ih _ (by omega) hlt rfl
          have hrest : parseAllFrom (buf.drop i) 1 = parseAllFrom ((buf.drop i).drop 1) 0 :=
            ih _ (by omega) (by omega) rfl
          rw [parseAllFrom_quiet h hcut, hhere, Nat.zero_add, hthere, hrest, List.drop_drop]

/-! ### The scan -/

/-- From left to right: a frame that starts here is emitted and passed, else one byte is. -/
def scan : List Byte → List Frame
  | [] => []
  | b :: rest =>
    match leading (b :: rest) with
    | some fr => fr :: scan ((b :: rest).drop fr.wire.length)
    | none => scan rest
termination_by bytes => bytes.length
decreasing_by
  · rw [List.length_drop, Frame.wire_length, List.length_cons]
    omega
  · exact Nat.lt_succ_self _

theorem scan_found {bytes : List Byte} {fr : Frame} (h : leading bytes = some fr) :
    scan bytes = fr :: scan (bytes.drop fr.wire.length) := by
  cases bytes with
  | nil => cases h
  | cons b rest => rw [scan, h]

theorem scan_skip (hlt : i < buf.length) (h : leading (buf.drop i) = none) :
    scan (buf.drop i) = scan (buf.drop (i + 1)) := by
  rw [drop_byteAt hlt] at h ⊢
  rw [scan, h]

theorem scan_end (h : buf.length ≤ i) : scan (buf.drop i) = [] := by
  rw [List.drop_eq_nil_of_le h, scan]

theorem leading_end (h : buf.length ≤ i) : leading (buf.drop i) = none := by
  rw [List.drop_eq_nil_of_le h]
  rfl

/-- The scan finds a frame if there is one. -/
theorem scan_eq_nil_iff (buf : List Byte) (i : ℕ) :
    scan (buf.drop i) = [] ↔ ∀ j, i ≤ j → leading (buf.drop j) = none := by
  induction hn : buf.length - i generalizing i with
  | zero => exact iff_of_true (scan_end (by omega)) fun j hj => leading_end (by omega)
  | succ n ih =>
    cases h : leading (buf.drop i) with
    | none =>
      rw [scan_skip (by omega) h, ih (i + 1) (by omega)]
      refine ⟨fun hrest j hj => ?_, fun hall j hj => hall j (by omega)⟩
      rcases Nat.eq_or_lt_of_le hj with rfl | hlt
      · exact h
      · exact hrest j hlt
    | some fr =>
      rw [scan_found h]
      refine iff_of_false (by simp) fun hall => ?_
      rw [hall i le_rfl] at h
      cases h

/-- The scan, started at `i`, comes to stand at `j`. -/
inductive Reaches (buf : List Byte) : ℕ → ℕ → Prop
  | here (i : ℕ) : Reaches buf i i
  | skip {i j : ℕ} : i < buf.length → leading (buf.drop i) = none → Reaches buf (i + 1) j → Reaches buf i j
  | jump {i j : ℕ} {fr : Frame} : leading (buf.drop i) = some fr →
      Reaches buf (i + fr.wire.length) j → Reaches buf i j

/-- Behind a cut frame that the scan from `i` comes to, no complete frame starts. -/
def Clear (buf : List Byte) (i : ℕ) : Prop :=
  ∀ j, Reaches buf i j → CutAt buf j → ∀ k, j < k → leading (buf.drop k) = none

theorem clear_skip (hlt : i < buf.length) (h : leading (buf.drop i) = none) (hcut : ¬ CutAt buf i) :
    Clear buf i ↔ Clear buf (i + 1) := by
  refine ⟨fun hc j hj => hc j (.skip hlt h hj), fun hc j hj => ?_⟩
  cases hj with
  | here => exact fun hi => absurd hi hcut
  | skip _ _ hj => exact hc j hj
  | jump hfr =>
    rw [h] at hfr
    cases hfr

theorem clear_jump {fr : Frame} (h : leading (buf.drop i) = some fr) :
    Clear buf i ↔ Clear buf (i + fr.wire.length) := by
  refine ⟨fun hc j hj => hc j (.jump h hj), fun hc j hj => ?_⟩
  cases hj with
  | here =>
    intro hi
    rw [hi.leading_none] at h
    cases h
  | skip _ hnone =>
    rw [h] at hnone
    cases hnone
  | jump hfr hj =>
    rw [h] at hfr
    obtain rfl := Option.some.inj hfr
    exact hc j hj

theorem Reaches.le {j : ℕ} (h : Reaches buf i j) : i ≤ j := by
  induction h with
  | here => exact le_rfl
  | skip _ _ _ ih => omega
  | jump _ _ ih => omega

theorem clear_cut (h : CutAt buf i) : Clear buf i ↔ scan (buf.drop i) = [] := by
  rw [scan_eq_nil_iff]
  refine ⟨fun hc j hj => ?_, fun hall j hj _ k hk => hall k (by have := hj.le; omega)⟩
  rcases Nat.eq_or_lt_of_le hj with rfl | hlt
  · exact h.leading_none
  · exact hc i (.here i) h j hlt

/-- The loop of `parse_all` does what the scan does, position by position, up to the first
cut frame. -/
theorem parseAllFrom_eq_iff (buf : List Byte) (off : ℕ) :
    parseAllFrom buf off = scan (buf.drop off) ↔ Clear buf off := by
  induction hn : buf.length - off using Nat.strong_induction_on generalizing off with
  | _ n ih =>
    by_cases hlt : off < buf.length
    · cases h : leading (buf.drop off) with
      | some fr =>
        rw [parseAllFrom_found h, scan_found h, List.drop_drop, clear_jump h,
          ← ih _ (by rw [Frame.wire_length]; omega) (off + fr.wire.length) rfl]
        simp
      | none =>
        by_cases hcut : CutAt buf off
        · rw [parseAllFrom_cut hcut, clear_cut hcut]
          exact eq_comm
        · rw [parseAllFrom_quiet h hcut, scan_skip hlt h, clear_skip hlt h hcut]
          exact ih _ (by omega) (off + 1) rfl
    · refine iff_of_true ?_ fun j hj hc => ?_
      · rw [parseAllFrom_short (by omega), scan_end (by omega)]
      · have := hj.le
        have := hc.1
        omega

/-- `parse_all` finds what the scan finds, unless the scan meets a frame cut off by the end
of the buffer with a complete frame behind it. -/
theorem parseAll_eq_scan_iff (buf : List Byte) : parseAll buf = scan buf ↔
    ∀ i, Reaches buf 0 i → CutAt buf i → ∀ j, i < j → leading (buf.drop j) = none :=
  parseAllFrom_eq_iff buf 0

/-- A header that promises sixteen bytes of payload, then a complete `PING` frame. -/
def hidden : List Byte := [scopeSync0, scopeSync1, scopeOpPing, 0, 16] ++ (Frame.mk scopeOpPing []).wire

/-- The frame behind the cut one is missed. -/
theorem hidden_missed : ¬ ∀ buf, parseAll buf = scan buf := by
  intro h
  have hcut : CutAt hidden 0 := by unfold CutAt; decide
  have hping : leading (hidden.drop 5) = none :=
    (parseAllFrom_eq_iff hidden 0).mp (h hidden) 0 (.here 0) hcut 5 (by norm_num)
  have hfound : leading (hidden.drop 5) = some ⟨scopeOpPing, []⟩ :=
    leading_iff.mpr ⟨Nat.zero_le _, List.prefix_rfl⟩
  rw [hfound] at hping
  cases hping

end FpgaScope.Host
