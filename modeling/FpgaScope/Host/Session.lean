import FpgaScope.Host.Decode
import FpgaScope.Host.Status

/-! The request and reply part of `Scope`. The bytes the device has sent, or will send, and
the host has not read are the state of a session; a call appends the answer to its request
and reads from the front, in as many reads as come before its deadline. -/

namespace FpgaScope.Host

open Protocol

/-! ### Calls -/

inductive Call
  | readCsr (word : ℤ)
  | writeCsr (word value : ℤ)
  | status

/-- `word & 0xFF`. -/
def wordByte (word : ℤ) : Byte := BitVec.ofInt 8 word

/-- What `_send` writes. A value that does not fit four bytes raises before. -/
def Call.request : Call → Option (List Byte)
  | .readCsr word => (buildFrame scopeOpReadCsr.toNat [wordByte word]).toOption
  | .writeCsr word value =>
    if 0 ≤ value ∧ value < 2 ^ 32 then
      (buildFrame scopeOpWriteCsr.toNat (wordByte word :: be32 (BitVec.ofInt 32 value))).toOption
    else none
  | .status => (buildFrame scopeOpReadCsr.toNat [csrStatus]).toOption

/-- The calls that return a register value. -/
def Call.reads : Call → Bool
  | .readCsr _ | .status => true
  | .writeCsr .. => false

/-- `int.from_bytes(fr.payload[:4], "big")`. -/
def registerOf (fr : Frame) : ℕ := fromBytesBig (fr.payload.take 4)

inductive Result
  | register (value : ℕ)
  | status (st : Status)
  | frame (fr : Frame)
  /-- The request was not sent. -/
  | overflow
  | timeout

/-- What a call makes of the frame it gets. -/
def Call.result : Call → Frame → Result
  | .readCsr _, fr => .register (registerOf fr)
  | .writeCsr .., fr => .frame fr
  | .status, fr => .status (decodeStatus (registerOf fr))

/-- `_recv` with `buf` read so far and `rx` still to be read; `sizes` bounds the reads that
come before the deadline. The frame, its end in what was read, and what is left. -/
def recv : List ℕ → List Byte → List Byte → Option (Frame × ℕ) × List Byte
  | [], _, rx => (none, rx)
  | n :: sizes, buf, rx =>
    let chunk := rx.take (min n 64)
    let rest := rx.drop (min n 64)
    if chunk = [] then recv sizes buf rest
    else match parseFrame (buf ++ chunk) 0 with
      | .ok fr => (some fr, rest)
      | .error _ => recv sizes (buf ++ chunk) rest

/-! ### Sessions -/

/-- A call, the device's answer to its request, and the reads before the deadline. -/
structure Exchange where
  call : Call
  answer : Frame
  sizes : List ℕ

/-- The device answers with the response to the request or with a `NAK`. -/
def Permitted (call : Call) (answer : Frame) : Prop :=
  (∃ code, answer = ⟨scopeOpNak, [code]⟩) ∨
    (if call.reads then ∃ v : BitVec 32, answer = ⟨scopeOpReadCsr, be32 v⟩
      else ∃ b, answer = ⟨scopeOpWriteCsr, [b]⟩)

namespace Exchange

/-- The frame the call gets, and what is unread after it. -/
def step (x : Exchange) (rx : List Byte) : Option (Frame × ℕ) × List Byte :=
  match x.call.request with
  | none => (none, rx)
  | some _ => recv x.sizes [] (rx ++ x.answer.wire)

def result (x : Exchange) (rx : List Byte) : Result :=
  match x.call.request with
  | none => .overflow
  | some _ =>
    match (x.step rx).1 with
    | none => .timeout
    | some fr => x.call.result fr.1

/-- The bytes the call can read before its deadline. -/
def delivered (x : Exchange) (rx : List Byte) : List Byte :=
  (rx ++ x.answer.wire).take (x.sizes.map (min · 64)).sum

end Exchange

/-- What is unread after a session. -/
def unread (xs : List Exchange) : List Byte := xs.foldl (fun rx x => (x.step rx).2) []

/-- A register value the call returns is the payload of the `READ_CSR` response to its own
request, taken from that response's place in the stream. -/
def Matched (x : Exchange) (rx : List Byte) : Prop :=
  ∀ fr stop, (x.step rx).1 = some (fr, stop) → ∃ v : BitVec 32,
    x.answer = ⟨scopeOpReadCsr, be32 v⟩ ∧ registerOf fr = v.toNat ∧
      fr = x.answer ∧ stop = rx.length + fr.wire.length

/-- Among the bytes that reach the call, no complete frame of an earlier answer has the
first sync, and no complete `NAK` has it. -/
structure Undisturbed (x : Exchange) (rx : List Byte) : Prop where
  stale : ∀ i < rx.length, (∀ j < i, syncAt (x.delivered rx) j = false) →
    leading ((x.delivered rx).drop i) = none
  nak : x.answer.cmd = scopeOpNak → (∀ j, syncAt rx j = false) →
    (x.delivered rx).length < rx.length + x.answer.wire.length

/-! ### What a call gets -/

theorem syncAt_append {buf t : List Byte} {j : ℕ} (h : j + 1 < buf.length) :
    syncAt (buf ++ t) j = syncAt buf j := by
  unfold syncAt byteAt
  rw [List.getD_append _ _ _ _ (by omega), List.getD_append _ _ _ _ h]

theorem leading_append {bytes : List Byte} {fr : Frame} (h : leading bytes = some fr) (t : List Byte) :
    leading (bytes ++ t) = some fr := by
  obtain ⟨hlen, hpre⟩ := leading_iff.mp h
  exact leading_iff.mpr ⟨hlen, hpre.trans (List.prefix_append _ _)⟩

/-- A frame that was found stays found. -/
theorem parseFrame_append {buf : List Byte} {r : Frame × ℕ} (h : parseFrame buf 0 = .ok r) (t : List Byte) :
    parseFrame (buf ++ t) 0 = .ok r := by
  obtain ⟨fr, stop⟩ := r
  obtain ⟨i, hi, hno, hlead, hstop⟩ := parseFrame_ok_iff.mp h
  have hfit := (leading_iff.mp hlead).2.length_le
  rw [List.length_drop, fr.wire_length] at hfit
  refine parseFrame_ok_iff.mpr ⟨i, hi, fun j hj hji => ?_, ?_, hstop⟩
  · rw [syncAt_append (by omega), hno j hj hji]
  · rw [List.drop_append_of_le_length (by omega)]
    exact leading_append hlead t

/-- What is found does not depend on how the bytes come in. -/
theorem recv_fst (sizes : List ℕ) {buf : List Byte} (rx : List Byte) (h : ∀ r, parseFrame buf 0 ≠ .ok r) :
    (recv sizes buf rx).1 = (parseFrame (buf ++ rx.take (sizes.map (min · 64)).sum) 0).toOption := by
  induction sizes generalizing buf rx with
  | nil =>
    cases hp : parseFrame buf 0 with
    | ok r => exact absurd hp (h r)
    | error e => simp [recv, hp, Except.toOption]
  | cons n sizes ih =>
    have htake : rx.take ((n :: sizes).map (min · 64)).sum =
        rx.take (min n 64) ++ (rx.drop (min n 64)).take (sizes.map (min · 64)).sum := by
      rw [List.map_cons, List.sum_cons, List.take_add]
    rw [recv, htake, ← List.append_assoc]
    by_cases hchunk : rx.take (min n 64) = []
    · rw [if_pos hchunk, hchunk, List.append_nil]
      exact ih _ h
    · rw [if_neg hchunk]
      cases hp : parseFrame (buf ++ rx.take (min n 64)) 0 with
      | ok r => rw [parseFrame_append hp]; rfl
      | error e => exact ih _ fun r hr => by rw [hp] at hr; cases hr

variable {x : Exchange} {rx : List Byte}

theorem request_reads (call : Call) (h : call.reads = true) : ∃ bytes, call.request = some bytes := by
  cases call with
  | readCsr word => exact ⟨_, by rw [Call.request, buildFrame_eq (by simp)]; rfl⟩
  | status => exact ⟨_, by rw [Call.request, buildFrame_eq (by simp)]; rfl⟩
  | writeCsr => cases h

theorem step_fst {bytes : List Byte} (h : x.call.request = some bytes) (rx : List Byte) :
    (x.step rx).1 = (parseFrame (x.delivered rx) 0).toOption := by
  have hnil : ∀ r, parseFrame [] 0 ≠ .ok r := fun r hr => by rw [parseFrame, if_neg (by simp)] at hr; cases hr
  rw [Exchange.step, h]
  exact recv_fst x.sizes (rx ++ x.answer.wire) hnil

theorem step_some {bytes : List Byte} (h : x.call.request = some bytes) {fr : Frame} {stop : ℕ} :
    (x.step rx).1 = some (fr, stop) ↔ ∃ i, (∀ j < i, syncAt (x.delivered rx) j = false) ∧
      leading ((x.delivered rx).drop i) = some fr ∧ stop = i + fr.wire.length := by
  have hsome : (parseFrame (x.delivered rx) 0).toOption = some (fr, stop) ↔
      parseFrame (x.delivered rx) 0 = .ok (fr, stop) := by
    cases parseFrame (x.delivered rx) 0 <;> simp [Except.toOption]
  rw [step_fst h, hsome, parseFrame_ok_iff]
  simp

/-! ### The call's own answer -/

theorem permitted_read {call : Call} (h : call.reads = true) (v : BitVec 32) :
    Permitted call ⟨scopeOpReadCsr, be32 v⟩ := by
  unfold Permitted
  rw [if_pos h]
  exact Or.inr ⟨v, rfl⟩

theorem Permitted.payload_le (h : Permitted x.call x.answer) : x.answer.payload.length ≤ 0xFFFF := by
  unfold Permitted at h
  rcases h with ⟨code, h⟩ | h
  · simp [h]
  · split at h
    · obtain ⟨v, h⟩ := h
      simp [h, be32]
    · obtain ⟨b, h⟩ := h
      simp [h]

theorem registerOf_be32 (cmd : Byte) (v : BitVec 32) : registerOf ⟨cmd, be32 v⟩ = v.toNat :=
  (fromBytesBig_bytes 4 v).trans (Nat.mod_eq_of_lt v.isLt)

theorem delivered_drop (x : Exchange) (rx : List Byte) : (x.delivered rx).drop rx.length <+: x.answer.wire := by
  rw [Exchange.delivered, List.drop_take, List.drop_left]
  exact List.take_prefix _ _

/-- A frame found where the answer begins is the answer, delivered in whole. -/
theorem own_frame (hlen : x.answer.payload.length ≤ 0xFFFF) {fr : Frame}
    (h : leading ((x.delivered rx).drop rx.length) = some fr) :
    fr = x.answer ∧ (x.delivered rx).length = rx.length + x.answer.wire.length := by
  obtain ⟨t, ht⟩ := delivered_drop x rx
  have hown : leading x.answer.wire = some x.answer := leading_iff.mpr ⟨hlen, List.prefix_rfl⟩
  have hsame := leading_append h t
  rw [ht, hown] at hsame
  obtain rfl := (Option.some.inj hsame).symm
  refine ⟨rfl, ?_⟩
  have hfit := (leading_iff.mp h).2.length_le
  have hle := congrArg List.length ht
  have hpos := x.answer.wire_length
  rw [List.length_append, List.length_drop] at hle
  rw [List.length_drop] at hfit
  omega

theorem syncAt_end {buf : List Byte} {j : ℕ} (h : buf.length ≤ j + 1) : syncAt buf j = false := by
  rw [syncAt, show byteAt buf (j + 1) = 0 from List.getD_eq_default _ _ h]
  exact Bool.and_false _

theorem syncAt_delivered {j : ℕ} (h : j + 1 < (x.delivered rx).length) :
    syncAt (x.delivered rx) j = syncAt (rx ++ x.answer.wire) j := by
  rw [Exchange.delivered] at h ⊢
  rw [← syncAt_append h (t := (rx ++ x.answer.wire).drop _), List.take_append_drop]

theorem syncAt_answer (rx : List Byte) (fr : Frame) : syncAt (rx ++ fr.wire) rx.length = true := by
  unfold syncAt byteAt
  rw [List.getD_append_right _ _ _ _ le_rfl, List.getD_append_right _ _ _ _ (by omega), Nat.sub_self,
    Nat.add_sub_cancel_left, fr.wire_eq]
  rfl

/-- The first byte of an answer ends no sync. -/
theorem syncAt_before (hno : ∀ j, syncAt rx j = false) (fr : Frame) {j : ℕ} (hj : j < rx.length) :
    syncAt (rx ++ fr.wire) j = false := by
  rcases Nat.lt_or_ge (j + 1) rx.length with hlt | hge
  · rw [syncAt_append hlt, hno j]
  · have hbyte : byteAt (rx ++ fr.wire) (j + 1) = scopeSync0 := by
      rw [byteAt, List.getD_append_right _ _ _ _ hge, show j + 1 - rx.length = 0 by omega, fr.wire_eq]
      rfl
    rw [syncAt, hbyte]
    exact Bool.and_false _

/-- What a call that returns a register value may rely on, and no more. -/
theorem matched_iff (hp : Permitted x.call x.answer) (hr : x.call.reads = true) (rx : List Byte) :
    Matched x rx ↔ Undisturbed x rx := by
  obtain ⟨bytes, hreq⟩ := request_reads x.call hr
  have hlen := hp.payload_le
  have hown : leading x.answer.wire = some x.answer := leading_iff.mpr ⟨hlen, List.prefix_rfl⟩
  constructor
  · refine fun h => ⟨fun i hi hno => ?_, fun hnak hno => ?_⟩
    · rw [Option.eq_none_iff_forall_not_mem]
      intro fr hlead
      obtain ⟨v, -, -, -, hstop⟩ := h fr _ ((step_some hreq).mpr ⟨i, hno, hlead, rfl⟩)
      omega
    · by_contra hlong
      have hall : x.delivered rx = rx ++ x.answer.wire := by
        rw [Exchange.delivered, List.length_take, List.length_append] at hlong
        exact List.take_of_length_le (by rw [List.length_append]; omega)
      obtain ⟨v, hv, -⟩ := h x.answer _ ((step_some hreq).mpr ⟨rx.length, fun j hj => by
        rw [hall, syncAt_before hno _ hj], by rw [hall, List.drop_left, hown], rfl⟩)
      rw [hv] at hnak
      exact absurd hnak (show scopeOpReadCsr ≠ scopeOpNak by decide)
  · intro h fr stop hstep
    obtain ⟨i, hno, hlead, rfl⟩ := (step_some hreq).mp hstep
    have hfit := (leading_iff.mp hlead).2.length_le
    rw [List.length_drop, fr.wire_length] at hfit
    have hge : rx.length ≤ i := by
      by_contra hlt
      rw [h.stale i (by omega) hno] at hlead
      cases hlead
    obtain rfl : i = rx.length := by
      by_contra hne
      have hsync := hno rx.length (by omega)
      rw [syncAt_delivered (by omega), syncAt_answer] at hsync
      cases hsync
    obtain ⟨rfl, hall⟩ := own_frame hlen hlead
    have hquiet : ∀ j, syncAt rx j = false := fun j => by
      rcases Nat.lt_or_ge (j + 1) rx.length with hlt | hge'
      · rw [← syncAt_append hlt, ← syncAt_delivered (x := x) (by omega), hno j (by omega)]
      · exact syncAt_end hge'
    rcases hp with ⟨code, hnak⟩ | hread
    · have hshort := h.nak (by rw [hnak]) hquiet
      omega
    · rw [if_pos hr] at hread
      obtain ⟨v, hv⟩ := hread
      exact ⟨v, hv, by rw [hv, registerOf_be32], rfl, rfl⟩

/-! ### Sessions without late replies -/

/-- The whole answer comes in before the deadline. -/
def Exchange.Prompt (x : Exchange) : Prop := x.answer.wire.length ≤ (x.sizes.map (min · 64)).sum

theorem parseFrame_wire {fr : Frame} (hlen : fr.payload.length ≤ 0xFFFF) :
    parseFrame fr.wire 0 = .ok (fr, fr.wire.length) :=
  parseFrame_ok_iff.mpr ⟨0, le_rfl, fun j _ hj => absurd hj (Nat.not_lt_zero j),
    leading_iff.mpr ⟨hlen, List.prefix_rfl⟩, (Nat.zero_add _).symm⟩

/-- A frame that is cut off is not found yet. -/
theorem parseFrame_part {fr : Frame} (hlen : fr.payload.length ≤ 0xFFFF) {buf rest : List Byte}
    (hw : buf ++ rest = fr.wire) (hrest : rest ≠ []) (r : Frame × ℕ) : parseFrame buf 0 ≠ .ok r := by
  intro h
  have hall := parseFrame_append h rest
  rw [hw, parseFrame_wire hlen] at hall
  obtain rfl := Except.ok.inj hall
  have hnext := (parseFrame_next h).2
  have hsum := congrArg List.length hw
  have hpos := List.length_pos_of_ne_nil hrest
  rw [List.length_append] at hsum
  omega

/-- The reads go on until the answer is complete, and leave nothing. -/
theorem recv_prompt {fr : Frame} (hlen : fr.payload.length ≤ 0xFFFF) (sizes : List ℕ) {buf rx : List Byte}
    (hw : buf ++ rx = fr.wire) (hrx : rx ≠ []) (htime : rx.length ≤ (sizes.map (min · 64)).sum) :
    recv sizes buf rx = (some (fr, fr.wire.length), []) := by
  induction sizes generalizing buf rx with
  | nil =>
    have hpos := List.length_pos_of_ne_nil hrx
    rw [List.map_nil, List.sum_nil] at htime
    omega
  | cons n sizes ih =>
    rw [List.map_cons, List.sum_cons] at htime
    have hsplit := List.take_append_drop (min n 64) rx
    have hdrop := List.length_drop (i := min n 64) (l := rx)
    rw [recv]
    by_cases hchunk : rx.take (min n 64) = []
    · rw [if_pos hchunk]
      rw [hchunk, List.nil_append] at hsplit
      rw [hsplit] at hdrop ⊢
      exact ih hw hrx (by omega)
    · rw [if_neg hchunk]
      have hw' : (buf ++ rx.take (min n 64)) ++ rx.drop (min n 64) = fr.wire := by
        rw [List.append_assoc, hsplit, hw]
      by_cases hrest : rx.drop (min n 64) = []
      · rw [hrest, List.append_nil] at hw'
        rw [hw', parseFrame_wire hlen, hrest]
      · cases hp : parseFrame (buf ++ rx.take (min n 64)) 0 with
        | ok r => exact absurd hp (parseFrame_part hlen hw' hrest r)
        | error e => exact ih hw' hrest (by omega)

theorem prompt_step (hp : Permitted x.call x.answer) (hx : x.Prompt) {bytes : List Byte}
    (h : x.call.request = some bytes) : x.step [] = (some (x.answer, x.answer.wire.length), []) := by
  rw [Exchange.step, h]
  exact recv_prompt hp.payload_le x.sizes rfl (fun hnil => by simp [Frame.wire_eq] at hnil) hx

/-- When every answer comes in time nothing is ever left unread. -/
theorem prompt_unread {xs : List Exchange} (hp : ∀ x ∈ xs, Permitted x.call x.answer)
    (hx : ∀ x ∈ xs, x.Prompt) : unread xs = [] := by
  induction xs with
  | nil => rfl
  | cons x xs ih =>
    have hstep : (x.step []).2 = [] := by
      cases h : x.call.request with
      | none => rw [Exchange.step, h]
      | some bytes => rw [prompt_step (hp x List.mem_cons_self) (hx x List.mem_cons_self) h]
    rw [unread, List.foldl_cons, hstep, ← unread]
    exact ih (fun y hy => hp y (List.mem_cons_of_mem _ hy)) (fun y hy => hx y (List.mem_cons_of_mem _ hy))

/-! ### Sessions -/

/-- In every session each register value is that of the call's own response if, and only if,
no complete frame of an earlier answer and no `NAK` comes first in what a call can read. -/
theorem replies_matched (xs : List Exchange) (hp : ∀ x ∈ xs, Permitted x.call x.answer) :
    (∀ pre x post, xs = pre ++ x :: post → x.call.reads = true → Matched x (unread pre)) ↔
      ∀ pre x post, xs = pre ++ x :: post → x.call.reads = true → Undisturbed x (unread pre) := by
  have hiff : ∀ pre x post, xs = pre ++ x :: post → x.call.reads = true →
      (Matched x (unread pre) ↔ Undisturbed x (unread pre)) := fun pre x post hxs hr =>
    matched_iff (hp x (by rw [hxs]; simp)) hr (unread pre)
  exact ⟨fun h pre x post hxs hr => (hiff pre x post hxs hr).mp (h pre x post hxs hr),
    fun h pre x post hxs hr => (hiff pre x post hxs hr).mpr (h pre x post hxs hr)⟩

/-- Two registers, read in time. -/
def timelyReads : List Exchange :=
  [⟨.readCsr 0, ⟨scopeOpReadCsr, be32 10⟩, [64]⟩, ⟨.status, ⟨scopeOpReadCsr, be32 11⟩, [4, 64]⟩]

theorem timelyReads_matched :
    Matched timelyReads[0] [] ∧ Matched timelyReads[1] (unread [timelyReads[0]]) := by
  have hp : ∀ x ∈ timelyReads, Permitted x.call x.answer ∧ x.Prompt ∧ x.answer.cmd = scopeOpReadCsr := by
    intro x hx
    simp only [timelyReads, List.mem_cons, List.not_mem_nil, or_false] at hx
    rcases hx with rfl | rfl <;>
      exact ⟨permitted_read rfl _, by simp [Exchange.Prompt, Frame.wire_length, be32], rfl⟩
  have hmatched := (replies_matched timelyReads fun x hx => (hp x hx).1).mpr fun pre x post hxs _ => by
    have hnil : unread pre = [] := prompt_unread (fun y hy => (hp y (by simp [hxs, hy])).1)
      (fun y hy => (hp y (by simp [hxs, hy])).2.1)
    have hcmd := (hp x (by simp [hxs])).2.2
    rw [hnil]
    exact ⟨fun i hi => absurd hi (Nat.not_lt_zero i), fun hnak => absurd (hcmd.symm.trans hnak) (by decide)⟩
  exact ⟨hmatched [] timelyReads[0] [timelyReads[1]] rfl rfl, hmatched [timelyReads[0]] timelyReads[1] [] rfl rfl⟩

/-- The first answer is late, and the second call takes it for its own. -/
def lateRead : List Exchange :=
  [⟨.readCsr 0, ⟨scopeOpReadCsr, be32 10⟩, []⟩, ⟨.readCsr 1, ⟨scopeOpReadCsr, be32 11⟩, [64]⟩]

/-- A poll of `STATUS` that is answered with `BAD_CRC`. -/
def nakStatus : Exchange := ⟨.status, ⟨scopeOpNak, [scopeNakBadCrc]⟩, [64]⟩

theorem lateRead_confused : ¬ ∀ xs : List Exchange, (∀ x ∈ xs, Permitted x.call x.answer) →
    ∀ pre x post, xs = pre ++ x :: post → x.call.reads = true → Matched x (unread pre) := by
  intro h
  have hp : ∀ x ∈ lateRead, Permitted x.call x.answer := by
    intro x hx
    simp only [lateRead, List.mem_cons, List.not_mem_nil, or_false] at hx
    rcases hx with rfl | rfl <;> exact permitted_read rfl _
  have hmatched := h lateRead hp [lateRead[0]] lateRead[1] [] rfl rfl
  have hunread : unread [lateRead[0]] = lateRead[0].answer.wire := rfl
  have hfound : (lateRead[1].step lateRead[0].answer.wire).1 = some (lateRead[0].answer, 11) := by
    obtain ⟨bytes, hreq⟩ := request_reads (.readCsr 1) rfl
    refine (step_some hreq).mpr ⟨0, fun j hj => absurd hj (Nat.not_lt_zero j), ?_, rfl⟩
    refine leading_iff.mpr ⟨by decide, lateRead[1].answer.wire, ?_⟩
    exact (List.take_of_length_le (by decide)).symm
  rw [hunread] at hmatched
  obtain ⟨v, -, -, hown, -⟩ := hmatched _ _ hfound
  revert hown
  decide

theorem nakStatus_result : nakStatus.result [] = .status (decodeStatus 1) := by
  obtain ⟨bytes, hreq⟩ := request_reads .status rfl
  have hstep := prompt_step (x := nakStatus) (Or.inl ⟨_, rfl⟩) (by unfold Exchange.Prompt; decide) hreq
  rw [Exchange.result, show nakStatus.call.request = some bytes from hreq, hstep]
  rfl

end FpgaScope.Host
