import FpgaScope.Engine.Conform

/-! When the frame engine has sent everything it owes it receives again at once. An answer ends
with the byte that leads back to the hunt: no other state but the emitter goes there, since a CSR
operation never returns to a receiving state. -/

namespace FpgaScope

namespace Protocol

open Host

variable {p : Params}

/-! ### Answers to more requests -/

theorem frameBytes_ne_nil (cmd : Byte) {l : List Byte} (h : l.length ≤ 0xFFFF) : frameBytes cmd l ≠ [] := by
  intro hnil
  have hlen := frameBytes_length cmd h
  rw [hnil, List.length_nil] at hlen
  omega

theorem nak_sent_ne_nil (code : Byte) : (nak code).sent ≠ [] := by
  change frameBytes scopeOpNak [code] ≠ []
  exact frameBytes_ne_nil _ (by simp)

/-- Every request gets an answer. -/
theorem respond_sent_ne_nil (pack : (ℕ → BitVec 32) → List Byte) (reply : ℕ → BitVec 32) (r : Request) :
    (respond p pack reply r).sent ≠ [] := by
  cases r with
  | oversized => exact nak_sent_ne_nil _
  | frame cmd payload crc =>
    unfold respond
    dsimp only
    split_ifs
    · exact nak_sent_ne_nil _
    · change frameBytes scopeOpPing (be32 scopeIdReg ++ be32 p.idValue) ≠ []
      exact frameBytes_ne_nil _ (by simp [be32])
    · split
      · change frameBytes scopeOpReadCsr (be32 (reply 0)) ≠ []
        exact frameBytes_ne_nil _ (by simp [be32])
      · exact nak_sent_ne_nil _
    · split
      · change frameBytes scopeOpWriteCsr [0#7 ++ BitVec.ofBool ((reply 1).getLsbD 5)] ≠ []
        exact frameBytes_ne_nil _ (by simp)
      · exact nak_sent_ne_nil _
    · split
      · have hw := ((reply 0).extractLsb' 8 8).isLt
        refine List.append_ne_nil_of_left_ne_nil (frameBytes_ne_nil _ ?_) _
        rw [Drain.drainHeader_length, windowsOf]
        omega
      · exact nak_sent_ne_nil _
    · exact nak_sent_ne_nil _

/-- The answers to the first requests come first. -/
theorem answer_sent_append (pack : (ℕ → BitVec 32) → List Byte) (rs xs : List Request)
    (reply : ℕ → BitVec 32) :
    ∃ bs, (answer p pack (rs ++ xs) reply).sent = (answer p pack rs reply).sent ++ bs ∧
      (xs ≠ [] → bs ≠ []) := by
  induction xs using List.reverseRecOn with
  | nil => exact ⟨[], by rw [List.append_nil, List.append_nil], fun h => absurd rfl h⟩
  | append_singleton xs x ih =>
    obtain ⟨bs, hbs, -⟩ := ih
    have hsnoc := congrArg Response.sent (answer_snoc p pack (rs ++ xs) x reply)
    dsimp only at hsnoc
    refine ⟨bs ++ (respond p pack (fun k => reply ((answer p pack (rs ++ xs) reply).ops.length + k)) x).sent,
      ?_, fun _ => List.append_ne_nil_of_right_ne_nil bs (respond_sent_ne_nil pack _ x)⟩
    rw [← List.append_assoc, ← List.append_assoc, ← hbs]
    exact hsnoc

/-- More bytes never take back an answer. -/
theorem answer_mono (p : Params) (pack : (ℕ → BitVec 32) → List Byte) (reply : ℕ → BitVec 32) {l l' : List Byte}
    (h : l <+: l') : (answer p pack (parse l).1 reply).sent <+: (answer p pack (parse l').1 reply).sent := by
  obtain ⟨m, rfl⟩ := h
  rw [parse_append]
  obtain ⟨bs, hbs, -⟩ := answer_sent_append (p := p) pack (parse l).1 (parse ((parse l).2 ++ m)).1 reply
  exact ⟨bs, hbs.symm⟩

/-- Bytes that add nothing to the answers complete no request. -/
theorem parse_eq_of_answered (p : Params) (pack : (ℕ → BitVec 32) → List Byte) (reply : ℕ → BitVec 32)
    {l l' : List Byte} (h : l <+: l')
    (hle : (answer p pack (parse l').1 reply).sent <+: (answer p pack (parse l).1 reply).sent) :
    (parse l').1 = (parse l).1 := by
  obtain ⟨m, rfl⟩ := h
  rw [parse_append] at hle ⊢
  obtain ⟨bs, hbs, hne⟩ := answer_sent_append (p := p) pack (parse l).1 (parse ((parse l).2 ++ m)).1 reply
  dsimp only at hle ⊢
  rw [hbs] at hle
  have hnil : bs = [] := by
    have hlen := hle.length_le
    rw [List.length_append] at hlen
    exact List.length_eq_zero_iff.mp (by omega)
  by_cases hx : (parse ((parse l).2 ++ m)).1 = []
  · rw [hx, List.append_nil]
  · exact absurd hnil (hne hx)

end Protocol

/-! ### Back to receiving -/

/-- The states that accept a byte. -/
def DrainSt.receives : DrainSt → Bool
  | .hunt | .sync1 | .rcmd | .rlenh | .rlenl | .rpay | .rcrch | .rcrcl => true
  | _ => false

/-- The states of a CSR operation under way. -/
def DrainSt.calls : DrainSt → Bool
  | .csrPush | .csrWait => true
  | _ => false

namespace Drain

open Protocol Clocked Host

variable {p : Params} {ρ : ℕ → BitVec 32} {d : Drain p}

theorem rxReady_eq (d : Drain p) : d.rxReady = d.st.receives := rfl

/-- Where the return states may lead. -/
structure Steady (d : Drain p) : Prop where
  call : d.st.calls = true → d.retC.receives = false
  retE : d.retE.calls = false
  plState : d.plState.calls = false
  afterCrc : d.afterCrc.calls = false

theorem Steady.reset (d : Drain p) : Steady d.reset := ⟨nofun, rfl, rfl, rfl⟩

theorem Steady.step (h : Steady d) (i : DrainIn) : Steady (d.step i) := by
  obtain ⟨hc, he, hp, ha⟩ := h
  unfold Drain.step
  cases hs : d.st with
  | csrPush | csrWait =>
    have hret : d.retC.receives = false := hc (by rw [hs]; rfl)
    dsimp only
    split
    all_goals exact ⟨fun _ => hret, he, hp, ha⟩
  | emit =>
    dsimp only
    split
    · exact ⟨fun hx => absurd (he.symm.trans hx) Bool.false_ne_true, he, hp, ha⟩
    · have hemit : d.st.calls = false := by rw [hs]; rfl
      exact ⟨fun hx => absurd (hemit.symm.trans hx) Bool.false_ne_true, he, hp, ha⟩
  | dispatch =>
    unfold dispatch nak
    dsimp only
    split_ifs
    all_goals exact ⟨nofun, he, rfl, rfl⟩
  | _ =>
    simp only [startOp, startRd, sendByte]
    try split_ifs
    all_goals refine ⟨fun hx => ?_, ?_, ?_, ?_⟩
    all_goals first
      | rfl
      | assumption
      | (rw [hs] at hx; cases hx)
      | cases hx

/-- Only the emitter leads from an answer back to receiving. -/
theorem Steady.busy (h : Steady d) (hrx : d.rxReady = false) (hemit : d.st ≠ .emit) (i : DrainIn) :
    (d.step i).rxReady = false := by
  rw [rxReady_eq] at hrx ⊢
  unfold Drain.step
  cases hs : d.st with
  | hunt | sync1 | rcmd | rlenh | rlenl | rpay | rcrch | rcrcl =>
    rw [hs] at hrx
    cases hrx
  | emit => exact absurd hs hemit
  | csrWait =>
    have hret : d.retC.receives = false := h.call (by rw [hs]; rfl)
    dsimp only
    split
    · exact hret
    · rw [hs]
      rfl
  | dispatch =>
    unfold dispatch nak
    dsimp only
    split_ifs
    all_goals rfl
  | _ =>
    simp only [startOp, startRd, sendByte]
    try split_ifs
    all_goals first
      | rfl
      | (rw [hs]; rfl)

/-- A flow back to the hunt sends something. -/
theorem Flow.speaks {j j' : ℕ} {bs : List Byte} {os : List CsrOp} {d' : Drain p}
    (hf : Flow ρ d j bs os d' j') (hrx : d.rxReady = false) (hst : d'.st = .hunt) (h : Steady d) :
    bs ≠ [] := by
  induction hf with
  | refl d =>
    rw [rxReady_eq, hst] at hrx
    cases hrx
  | @move d j bs os d' j' _ _ ih =>
    by_cases hemit : d.st = .emit
    · have hoffers : d.offers = [d.txData] := by
        rw [offers, txValid, hemit]
        rfl
      rw [hoffers]
      exact List.cons_ne_nil _ _
    · exact List.append_ne_nil_of_right_ne_nil _ (ih (h.busy hrx hemit _) hst (h.step _))

/-- What the engine has sent is all it owes only while it receives. -/
theorem Serves.rxReady_of_sent {H : History} (h : Serves ρ d H) (hsteady : Steady d)
    (hsent : H.emitted = (H.due p ρ).sent) : d.rxReady = true := by
  cases h with
  | receiving h => exact h.rxReady
  | answering hrx _ hf hst hall =>
    refine absurd ?_ (hf.speaks hrx hst hsteady)
    rw [← hsent] at hall
    exact List.append_right_eq_self.mp hall

theorem steady_run (d₀ : Drain p) (inp : ℕ → DrainIn) (n : ℕ) : Steady (run d₀ inp n) :=
  trace_invariant Drain.step d₀.reset inp Steady (.reset d₀) (fun _ i h => h.step i) n

end Drain

end FpgaScope
