import FpgaScope.Engine.Dump

/-! When the packing of the engine is the documented one: exactly when every drained word
arrives intact. Both packings give the same number of bytes, so equal streams have equal
words in every place. -/

namespace FpgaScope.Protocol

open Host

variable {α : Type*} {p : Params}

/-! ### Equal streams have equal parts -/

theorem flatMap_range_inj {f g : ℕ → List α} (hlen : ∀ i, (f i).length = (g i).length) (n : ℕ) :
    (List.range n).flatMap f = (List.range n).flatMap g ↔ ∀ i < n, f i = g i := by
  induction n with
  | zero => simp
  | succ n ih =>
    rw [List.range_succ, List.flatMap_append, List.flatMap_append, List.flatMap_singleton,
      List.flatMap_singleton]
    constructor
    · intro h i hi
      obtain ⟨hinit, hlast⟩ := List.append_inj' h (hlen n)
      rcases Nat.lt_succ_iff_lt_or_eq.mp hi with hi | rfl
      · exact ih.mp hinit i hi
      · exact hlast
    · intro h
      rw [ih.mpr fun i hi => h i (by omega), h n (by omega)]

theorem frame_length (cmd : Byte) (payload : List Byte) :
    (frame cmd payload).length = payload.length + 7 := by
  simp only [frame, body, List.length_append, List.length_cons, List.length_nil]
  omega

theorem frameBytes_length (cmd : Byte) {l : List Byte} (hle : l.length ≤ 0xFFFF) :
    (frameBytes cmd l).length = l.length + 7 := by
  rw [frameBytes_eq hle, frame_length]

theorem frameBytes_inj {cmd : Byte} {l l' : List Byte} (hlen : l.length = l'.length)
    (hle : l.length ≤ 0xFFFF) : frameBytes cmd l = frameBytes cmd l' ↔ l = l' := by
  constructor
  · intro h
    rw [frameBytes_eq hle, frameBytes_eq (hlen ▸ hle), frame, frame] at h
    have hbody := (List.append_inj' h rfl).1
    exact (List.append_inj (List.append_cancel_left hbody) rfl).2
  · intro h
    rw [h]

/-! ### A drained buffer -/

theorem flatMap_length_eq {f g : ℕ → List α} (hlen : ∀ i, (f i).length = (g i).length) (n : ℕ) :
    ((List.range n).flatMap f).length = ((List.range n).flatMap g).length := by
  simp only [List.length_flatMap, hlen]

/-- Any packing into `nb` bytes. -/
def Packs (p : Params) (pack : (ℕ → BitVec 32) → List Byte) : Prop := ∀ lane, (pack lane).length = p.nb

variable {pack pack' : (ℕ → BitVec 32) → List Byte} (reply : ℕ → BitVec 32)

theorem drainData_length (h : Packs p pack) (c : ℕ) :
    (drainData p pack reply c).length = 2 + p.spf * p.nb := by
  simp only [drainData, be16, List.length_append, List.length_cons, List.length_nil,
    List.length_flatMap, h _, List.map_const', List.length_range, List.sum_replicate_nat]

theorem drainData_length_le (h : Packs p pack) (c : ℕ) :
    (drainData p pack reply c).length ≤ 0xFFFF := by
  have hle := p.storeW_le
  rw [drainData_length reply h, (Drain.spf_eq p).1]
  unfold Params.nb
  omega

theorem drainFrame_length (h : Packs p pack) (h' : Packs p pack') (c : ℕ) :
    (frameBytes scopeOpDrainData (drainData p pack reply c)).length =
      (frameBytes scopeOpDrainData (drainData p pack' reply c)).length := by
  rw [frameBytes_length _ (drainData_length_le reply h c), drainData_length reply h,
    frameBytes_length _ (drainData_length_le reply h' c), drainData_length reply h']

theorem drain_length (h : Packs p pack) (h' : Packs p pack') :
    (drain p pack reply).sent.length = (drain p pack' reply).sent.length := by
  rw [drain, drain, List.length_append, List.length_append,
    flatMap_length_eq (drainFrame_length reply h h')]

/-- Two packings drain to the same bytes exactly when they agree on every word. -/
theorem drain_sent_inj (h : Packs p pack) (h' : Packs p pack') :
    (drain p pack reply).sent = (drain p pack' reply).sent ↔
      ∀ a < p.depth, pack (drainWord p reply a) = pack' (drainWord p reply a) := by
  obtain ⟨hspf, hdepth, -⟩ := Drain.spf_eq p
  have hchunk : ∀ c, frameBytes scopeOpDrainData (drainData p pack reply c) =
      frameBytes scopeOpDrainData (drainData p pack' reply c) ↔
        ∀ s < p.spf, pack (drainWord p reply (c * p.spf + s)) =
          pack' (drainWord p reply (c * p.spf + s)) := by
    intro c
    rw [frameBytes_inj (by rw [drainData_length reply h, drainData_length reply h'])
      (drainData_length_le reply h c), drainData, drainData, List.append_right_inj,
      flatMap_range_inj fun s => (h _).trans (h' _).symm]
  rw [drain, drain, List.append_right_inj, flatMap_range_inj (drainFrame_length reply h h')]
  simp only [hchunk, hspf]
  constructor
  · intro hall a ha
    have hw := hall (a / 256) (by omega) (a % 256) (Nat.mod_lt _ (by norm_num))
    rwa [Nat.div_add_mod'] at hw
  · intro hall c hc s hs
    exact hall _ (by omega)

/-! ### All requests -/

/-- A well-formed `DRAIN`. -/
def Request.Drains : Request → Prop
  | .oversized => False
  | .frame cmd payload crc =>
    crc.toNat = crc16Ccitt (body cmd payload) 0xFFFF ∧ cmd = scopeOpDrain ∧ payload = []

/-- A `DRAIN` as the host sends it. -/
def drainRequest : Request := .frame scopeOpDrain [] (crcOf (body scopeOpDrain []))

theorem drainRequest_drains : drainRequest.Drains := ⟨(crc16Ccitt_eq _).symm, rfl, rfl⟩

theorem respond_drains {r : Request} (hr : r.Drains) : respond p pack reply r = drain p pack reply := by
  cases r with
  | oversized => cases hr
  | frame cmd payload crc =>
    obtain ⟨hcrc, rfl, rfl⟩ := hr
    simp only [respond, hcrc, ne_eq, not_true_eq_false, ↓reduceIte]
    rfl

/-- Only a `DRAIN` depends on the packing. -/
theorem respond_pack (pack pack' : (ℕ → BitVec 32) → List Byte) {r : Request} (hr : ¬ r.Drains) :
    respond p pack reply r = respond p pack' reply r := by
  cases r with
  | oversized => rfl
  | frame cmd payload crc =>
    simp only [respond]
    split_ifs with hcrc _ _ _ hop
    · rfl
    · rfl
    · rfl
    · rfl
    · cases payload with
      | nil => exact absurd ⟨not_not.mp hcrc, hop, rfl⟩ hr
      | cons => rfl
    · rfl

theorem respond_ops (pack pack' : (ℕ → BitVec 32) → List Byte) (r : Request) :
    (respond p pack reply r).ops = (respond p pack' reply r).ops := by
  by_cases hr : r.Drains
  · rw [respond_drains reply hr, respond_drains reply hr, drain, drain]
  · rw [respond_pack reply pack pack' hr]

theorem answer_ops (pack pack' : (ℕ → BitVec 32) → List Byte) (rs : List Request) :
    ∀ reply, (answer p pack rs reply).ops = (answer p pack' rs reply).ops := by
  induction rs with
  | nil => exact fun _ => rfl
  | cons r rs ih =>
    intro reply
    simp only [answer, respond_ops reply pack pack' r, ih]

/-- Every word that the requests drain arrives intact. -/
def AllIntact (p : Params) : List Request → (ℕ → BitVec 32) → Prop
  | [], _ => True
  | r :: rs, reply => (r.Drains → ∀ a < p.depth, Intact p (drainWord p reply a)) ∧
      AllIntact p rs fun k => reply ((respond p (wordBytes p) reply r).ops.length + k)

/-- A design of at most 512 stored bits has nothing to lose. -/
theorem allIntact_of_narrow (h : p.storeW ≤ 512) (rs : List Request) :
    ∀ reply, AllIntact p rs reply := by
  induction rs with
  | nil => exact fun _ => trivial
  | cons r rs ih => exact fun reply => ⟨fun _ _ _ => Or.inl h, ih _⟩

/-- The engine's answers are the documented ones exactly when every word arrives intact. -/
theorem answer_sent_eq_iff (rs : List Request) : ∀ reply,
    (answer p (laneBytes p) rs reply).sent = (answer p (wordBytes p) rs reply).sent ↔
      AllIntact p rs reply := by
  induction rs with
  | nil => exact fun _ => iff_of_true rfl trivial
  | cons r rs ih =>
    intro reply
    simp only [answer, AllIntact, respond_ops reply (laneBytes p) (wordBytes p) r]
    rw [← ih]
    by_cases hr : r.Drains
    · have hinj := drain_sent_inj reply (laneBytes_length p) (wordBytes_length p)
      simp only [laneBytes_eq_iff] at hinj
      simp only [respond_drains reply hr, hr, forall_const, ← hinj]
      constructor
      · exact fun h => List.append_inj h (drain_length reply (laneBytes_length p) (wordBytes_length p))
      · rintro ⟨h₁, h₂⟩
        rw [h₁, h₂]
    · rw [respond_pack reply (laneBytes p) (wordBytes p) hr, List.append_right_inj]
      exact (and_iff_right fun hx => absurd hx hr).symm

end FpgaScope.Protocol
