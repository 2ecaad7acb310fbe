import FpgaScope.Engine.Intact
import FpgaScope.Engine.Receive
import FpgaScope.Lib.Trace

/-! The invariant of the frame engine over its whole history. Either it is receiving and
has answered every complete request, or a flow is left that finishes the answers. It does
not mention time, so it holds under any gaps and any back-pressure. -/

namespace FpgaScope

open Protocol Clocked

/-- Everything that went through the four handshakes, oldest first. -/
structure History where
  received : List Byte
  emitted : List Byte
  operations : List CsrOp
  replies : List (BitVec 32)

namespace History

def empty : History := { received := [], emitted := [], operations := [], replies := [] }

/-- The history after one more edge of `xclk`. -/
def after {p : Params} (H : History) (d : Drain p) (i : DrainIn) : History where
  received := H.received ++ (d.accepted i).toList
  emitted := H.emitted ++ (d.sent i).toList
  operations := H.operations ++ (d.issued i).toList
  replies := H.replies ++ (d.taken i).toList

/-- The history after an event that may be no edge of `xclk`. -/
def next {p : Params} (H : History) (d : Drain p) : Option DrainIn → History
  | none => H
  | some i => H.after d i

/-- The stream `ρ` begins with the replies. -/
def Agrees (H : History) (ρ : ℕ → BitVec 32) : Prop := ∀ k x, H.replies[k]? = some x → ρ k = x

/-- The answers due, with the packing of the engine. -/
def due (p : Params) (H : History) (ρ : ℕ → BitVec 32) : Response :=
  answer p (laneBytes p) (parse H.received).1 ρ

section
variable {p : Params} {H : History} {d : Drain p} {i : DrainIn} {ρ : ℕ → BitVec 32}

theorem next_operations (H : History) (d : Drain p) (x : Option DrainIn) :
    (H.next d x).operations = H.operations ++ (x.bind d.issued).toList := by
  cases x with
  | none => exact (List.append_nil _).symm
  | some i => rfl

theorem next_replies (H : History) (d : Drain p) (x : Option DrainIn) :
    (H.next d x).replies = H.replies ++ (x.bind d.taken).toList := by
  cases x with
  | none => exact (List.append_nil _).symm
  | some i => rfl

theorem Agrees.taken (h : (H.after d i).Agrees ρ) {x : BitVec 32} (hx : d.taken i = some x) :
    x = ρ H.replies.length := by
  refine (h _ _ ?_).symm
  rw [after, hx, Option.toList_some, List.getElem?_concat_length]

end

end History

namespace Drain

variable {p : Params} {ρ : ℕ → BitVec 32} {d : Drain p} {H : History} {i : DrainIn}

/-- The engine keeps up with the requests. -/
inductive Serves (ρ : ℕ → BitVec 32) (d : Drain p) (H : History) : Prop
  | receiving (h : Receiving d (parse H.received).2) (hsent : H.emitted = (H.due p ρ).sent)
      (hops : H.operations = (H.due p ρ).ops) (hlen : H.replies.length = H.operations.length)
  | answering {bs : List Byte} {os : List CsrOp} {d' : Drain p} (hrx : d.rxReady = false)
      (hrest : (parse H.received).2 = [])
      (hf : Flow ρ d H.replies.length bs os d' (H.due p ρ).ops.length) (hst : d'.st = .hunt)
      (hsent : H.emitted ++ bs = (H.due p ρ).sent) (hops : H.operations ++ os = (H.due p ρ).ops)

theorem Receiving.start (h : d.st = .hunt) : Receiving d [] := .hunt h rfl nofun

/-- An engine in the hunt that has done nothing yet. -/
theorem Serves.start (h : d.st = .hunt) : Serves ρ d .empty := by
  have hparse : parse History.empty.received = ([], []) := parse_none rfl
  have hdue : History.empty.due p ρ = { ops := [], sent := [] } := by rw [History.due, hparse]; rfl
  exact .receiving (by rw [hparse]; exact .start h) (by rw [hdue]; rfl) (by rw [hdue]; rfl) rfl

/-! ### One edge -/

/-- A receiving engine offers nothing. -/
theorem quiet_of_rxReady (h : d.rxReady = true) :
    d.sent i = none ∧ d.issued i = none ∧ d.taken i = none := by
  unfold rxReady at h
  unfold sent issued taken txValid cmdValid rspReady
  cases hs : d.st with
  | hunt | sync1 | rcmd | rlenh | rlenl | rpay | rcrch | rcrcl => exact ⟨rfl, rfl, rfl⟩
  | _ => simp [hs] at h

theorem Received.rxReady {r : Request} (h : Received d r) : d.rxReady = false := by
  cases r with
  | oversized => rw [Drain.rxReady, NakReady.st h]
  | frame => rw [Drain.rxReady, Ready.st h]

/-- A complete request is answered. -/
theorem Received.answers {r : Request} {j : ℕ} (h : Received d r) :
    Answers ρ d j (respond p (laneBytes p) (fun k => ρ (j + k)) r) := by
  cases r with
  | oversized => exact NakReady.flow h
  | frame => exact Ready.answered h

/-- The history after a byte that completes request `r`. -/
theorem due_snoc {b : Byte} {r : Request} (h : next ((parse H.received).2 ++ [b]) = some (r, []))
    (H' : History) (hrec : H'.received = H.received ++ [b]) :
    let a := respond p (laneBytes p) (fun k => ρ ((H.due p ρ).ops.length + k)) r
    (H'.due p ρ).ops = (H.due p ρ).ops ++ a.ops ∧ (H'.due p ρ).sent = (H.due p ρ).sent ++ a.sent ∧
      (parse H'.received).2 = [] := by
  have hnil : parse [] = ([], []) := parse_none rfl
  have hparse : parse H'.received = ((parse H.received).1 ++ [r], []) := by
    rw [hrec, parse_append, parse_some h, hnil]
  have hall := answer_snoc p (laneBytes p) (parse H.received).1 r ρ
  have hdue : H'.due p ρ = answer p (laneBytes p) ((parse H.received).1 ++ [r]) ρ := by
    rw [History.due, hparse]
  rw [hdue, hparse]
  exact ⟨congrArg Response.ops hall, congrArg Response.sent hall, rfl⟩

theorem Serves.step_receiving (h : Receiving d (parse H.received).2)
    (hsent : H.emitted = (H.due p ρ).sent) (hops : H.operations = (H.due p ρ).ops)
    (hlen : H.replies.length = H.operations.length) : Serves ρ (d.step i) (H.after d i) := by
  obtain ⟨hs, ho, ht⟩ := quiet_of_rxReady (i := i) h.rxReady
  have hafter : H.after d i = { H with received := H.received ++ (d.accepted i).toList } := by
    rw [History.after, hs, ho, ht, Option.toList_none, Option.toList_none, Option.toList_none,
      List.append_nil, List.append_nil, List.append_nil]
  rw [hafter, accepted, h.rxReady]
  cases hv : i.rxValid with
  | false =>
    rw [step_silent h.rxReady hv, if_neg (by decide), Option.toList_none, List.append_nil]
    exact .receiving h hsent hops hlen
  | true =>
    rw [if_pos (by decide), Option.toList_some]
    rcases h.step hv with hr | ⟨r, hnext, hr⟩
    · have hparse : parse (H.received ++ [i.rxData]) =
          ((parse H.received).1, (parse H.received).2 ++ [i.rxData]) := by
        rw [parse_append, hr.parse_eq, List.append_nil]
      have hdue : History.due p { H with received := H.received ++ [i.rxData] } ρ = H.due p ρ := by
        rw [History.due, hparse, History.due]
      refine .receiving ?_ (hdue.symm ▸ hsent) (hdue.symm ▸ hops) hlen
      rw [hparse]
      exact hr
    · obtain ⟨hops', hsent', hrest⟩ := due_snoc (ρ := ρ) (p := p) hnext
        { H with received := H.received ++ [i.rxData] } rfl
      obtain ⟨d', hf, hst⟩ := hr.answers (ρ := ρ) (j := (H.due p ρ).ops.length)
      have hj : (H.due p ρ).ops.length = H.replies.length := by rw [← hops, hlen]
      rw [← List.length_append, ← hops', hj] at hf
      refine .answering hr.rxReady hrest hf hst ?_ ?_
      · rw [hsent', hj, ← hsent]
      · rw [hops', hj, ← hops]

theorem Serves.step_answering {bs : List Byte} {os : List CsrOp} {d' : Drain p}
    (hrx : d.rxReady = false) (hrest : (parse H.received).2 = [])
    (hf : Flow ρ d H.replies.length bs os d' (H.due p ρ).ops.length) (hst : d'.st = .hunt)
    (hsent : H.emitted ++ bs = (H.due p ρ).sent) (hops : H.operations ++ os = (H.due p ρ).ops)
    (hρ : ∀ x, d.taken i = some x → x = ρ H.replies.length) : Serves ρ (d.step i) (H.after d i) := by
  cases hw : d.stalls i with
  | true =>
    obtain ⟨hstep, ha, hs, ho, ht⟩ := step_stalled hw
    have hafter : H.after d i = H := by
      rw [History.after, ha, hs, ho, ht]
      simp only [Option.toList_none, List.append_nil]
    rw [hstep, hafter]
    exact .answering hrx hrest hf hst hsent hops
  | false =>
    obtain ⟨hstep, ha, hs, ho, ht⟩ := step_moving hrx hw hρ
    have hne : d'.st ≠ d.st := by
      intro he
      rw [hst] at he
      rw [rxReady, ← he] at hrx
      cases hrx
    obtain ⟨bs', os', rfl, rfl, hf'⟩ := hf.begins hne
    have hrec : (H.after d i).received = H.received := by
      rw [History.after, ha, Option.toList_none, List.append_nil]
    have hdue : (H.after d i).due p ρ = H.due p ρ := by rw [History.due, hrec, History.due]
    have hsent' : (H.after d i).emitted ++ bs' = (H.due p ρ).sent := by
      rw [← hsent, History.after, hs, List.append_assoc]
    have hops' : (H.after d i).operations ++ os' = (H.due p ρ).ops := by
      rw [← hops, History.after, ho, List.append_assoc]
    have hcount : (H.after d i).replies.length = H.replies.length + d.rspReady.toNat := by
      rw [History.after, List.length_append, ht]
    rw [hstep]
    cases hrx' : (d.move (ρ H.replies.length)).rxReady with
    | false =>
      refine .answering hrx' (by rw [hrec]; exact hrest) ?_ hst (by rw [hdue, hsent'])
        (by rw [hdue, hops'])
      rw [hdue, hcount]
      exact hf'
    | true =>
      -- only the end of the flow receives again
      generalize hj : H.replies.length + d.rspReady.toNat = j at hf' hcount
      generalize hj' : (H.due p ρ).ops.length = j' at hf'
      cases hf' with
      | move hx => rw [hrx'] at hx; cases hx
      | refl =>
        rw [List.append_nil] at hsent' hops'
        refine .receiving ?_ (by rw [hdue, hsent']) (by rw [hdue, hops']) (by rw [hcount, hops', hj'])
        rw [hrec, hrest]
        exact .start hst

/-- One edge of `xclk`, whatever the other sides do. -/
theorem Serves.step (h : Serves ρ d H) (hρ : (H.after d i).Agrees ρ) :
    Serves ρ (d.step i) (H.after d i) := by
  cases h with
  | receiving h hsent hops hlen => exact step_receiving h hsent hops hlen
  | answering hrx hrest hf hst hsent hops =>
    exact step_answering hrx hrest hf hst hsent hops fun x hx => hρ.taken hx

/-! ### What the invariant says -/

theorem Serves.emitted_prefix (h : Serves ρ d H) : H.emitted <+: (H.due p ρ).sent := by
  cases h with
  | receiving _ hsent => exact hsent ▸ List.prefix_rfl
  | answering _ _ _ _ hsent => exact ⟨_, hsent⟩

theorem Serves.operations_prefix (h : Serves ρ d H) : H.operations <+: (H.due p ρ).ops := by
  cases h with
  | receiving _ _ hops => exact hops ▸ List.prefix_rfl
  | answering _ _ _ _ _ hops => exact ⟨_, hops⟩

/-- While it receives, the engine owes nothing. -/
theorem Serves.settled (h : Serves ρ d H) (hrx : d.rxReady = true) :
    H.emitted = (H.due p ρ).sent ∧ H.operations = (H.due p ρ).ops := by
  cases h with
  | receiving _ hsent hops => exact ⟨hsent, hops⟩
  | answering hx => rw [hrx] at hx; cases hx

/-! ### Executions -/

/-- The engine among other clocks; `inp n` is `none` where `xclk` has no edge. -/
structure Execution (d : ℕ → Drain p) (H : ℕ → History) (inp : ℕ → Option DrainIn) : Prop where
  idle : ∀ n, inp n = none → d (n + 1) = d n ∧ H (n + 1) = H n
  edge : ∀ n i, inp n = some i → d (n + 1) = (d n).step i ∧ H (n + 1) = (H n).after (d n) i

namespace Execution

variable {d : ℕ → Drain p} {H : ℕ → History} {inp : ℕ → Option DrainIn} (e : Execution d H inp)
include e

/-- Nothing that went through a handshake is taken back. -/
theorem mono {α : Type*} (π : History → List α) (hπ : ∀ H (d : Drain p) i, π H <+: π (H.after d i))
    (m n : ℕ) (h : m ≤ n) : π (H m) <+: π (H n) := by
  induction n, h using Nat.le_induction with
  | base => exact List.prefix_rfl
  | succ n _ ih =>
    cases hi : inp n with
    | none => rwa [(e.idle n hi).2]
    | some i =>
      rw [(e.edge n i hi).2]
      exact ih.trans (hπ _ _ _)

theorem replies_mono (m n : ℕ) (h : m ≤ n) : (H m).replies <+: (H n).replies :=
  e.mono History.replies (fun _ _ _ => List.prefix_append _ _) m n h

theorem received_mono (m n : ℕ) (h : m ≤ n) : (H m).received <+: (H n).received :=
  e.mono History.received (fun _ _ _ => List.prefix_append _ _) m n h

theorem operations_mono (m n : ℕ) (h : m ≤ n) : (H m).operations <+: (H n).operations :=
  e.mono History.operations (fun _ _ _ => List.prefix_append _ _) m n h

theorem agrees_mono {m n : ℕ} (h : m ≤ n) (hρ : (H n).Agrees ρ) : (H m).Agrees ρ := by
  intro k x hx
  obtain ⟨t, ht⟩ := e.replies_mono m n h
  obtain ⟨hlt, -⟩ := List.getElem?_eq_some_iff.mp hx
  refine hρ k x ?_
  rw [← ht, List.getElem?_append_left hlt, hx]

/-- The engine keeps up with the requests throughout. -/
theorem serves (h₀ : Serves ρ (d 0) (H 0)) (n : ℕ) (hρ : (H n).Agrees ρ) : Serves ρ (d n) (H n) := by
  induction n with
  | zero => exact h₀
  | succ n ih =>
    have hprev := ih (e.agrees_mono (Nat.le_succ n) hρ)
    cases hi : inp n with
    | none =>
      rw [(e.idle n hi).1, (e.idle n hi).2]
      exact hprev
    | some i =>
      rw [(e.edge n i hi).2] at hρ
      rw [(e.edge n i hi).1, (e.edge n i hi).2]
      exact hprev.step hρ

/-- One stream of replies serves the whole execution. -/
theorem exists_serves (h₀ : ∀ ρ, Serves ρ (d 0) (H 0)) :
    ∃ ρ, ∀ n, (H n).Agrees ρ ∧ Serves ρ (d n) (H n) := by
  obtain ⟨ρ, hρ⟩ := exists_stream e.replies_mono
  exact ⟨ρ, fun n => ⟨hρ n, e.serves (h₀ ρ) n (hρ n)⟩⟩

theorem unchanged {n : ℕ} (h : ∀ i, inp n = some i → (d n).stalls i = true) :
    d (n + 1) = d n ∧ H (n + 1) = H n := by
  cases hi : inp n with
  | none => exact e.idle n hi
  | some i =>
    obtain ⟨hstep, ha, hs, ho, ht⟩ := step_stalled (h i hi)
    rw [(e.edge n i hi).1, (e.edge n i hi).2, History.after, ha, hs, ho, ht]
    simp only [Option.toList_none, List.append_nil]
    exact ⟨hstep, trivial⟩

/-- Until its next move the engine stays as it is. -/
theorem waits {k : ℕ} {i : DrainIn} (hi : inp k = some i) (hmoves : (d k).stalls i = false) :
    ∀ g n, n + g = k → ∃ m, n ≤ m ∧ d m = d n ∧ H m = H n ∧
      ∃ i, inp m = some i ∧ (d n).stalls i = false := by
  intro g
  induction g with
  | zero =>
    rintro n rfl
    exact ⟨n, le_rfl, rfl, rfl, i, hi, hmoves⟩
  | succ g ih =>
    intro n hn
    by_cases h : ∀ i, inp n = some i → (d n).stalls i = true
    · obtain ⟨hd, hH⟩ := e.unchanged h
      obtain ⟨m, hle, hdm, hHm, i', hi', hst⟩ := ih (n + 1) (by omega)
      exact ⟨m, by omega, hdm.trans hd, hHm.trans hH, i', hi', hd ▸ hst⟩
    · obtain ⟨i', h'⟩ := not_forall.mp h
      obtain ⟨hi', hst⟩ := Classical.not_imp.mp h'
      exact ⟨n, le_rfl, rfl, rfl, i', hi', Bool.eq_false_iff.mpr hst⟩

/-- A flow is carried out when no handshake waits forever. -/
theorem completes (hmove : ∀ n, (d n).rxReady = false →
      ∃ m, n ≤ m ∧ ∃ i, inp m = some i ∧ (d m).stalls i = false)
    (hρ : ∀ n, (H n).Agrees ρ) {e₁ e₂ : Drain p} {j j' : ℕ} {bs : List Byte} {os : List CsrOp}
    (hf : Flow ρ e₁ j bs os e₂ j') : ∀ n, d n = e₁ → (H n).replies.length = j →
      ∃ m, n ≤ m ∧ d m = e₂ ∧ (H m).received = (H n).received := by
  induction hf with
  | refl => exact fun n hn _ => ⟨n, le_rfl, hn, rfl⟩
  | move hrx _ ih =>
    rintro n rfl rfl
    obtain ⟨k, hk, i, hi, hmoves⟩ := hmove n hrx
    obtain ⟨m, hm, hdm, hHm, i, hi, hst⟩ := e.waits hi hmoves (k - n) n (by omega)
    have hagree := hρ (m + 1)
    rw [(e.edge m i hi).2, hHm, hdm] at hagree
    obtain ⟨hstep, ha, -, -, ht⟩ := step_moving hrx hst fun x hx => hagree.taken hx
    obtain ⟨m', hm', hd', hrec⟩ := ih (m + 1) (by rw [(e.edge m i hi).1, hdm, hstep]) (by
      rw [(e.edge m i hi).2, hHm, hdm, History.after, List.length_append, ht])
    refine ⟨m', by omega, hd', hrec.trans ?_⟩
    rw [(e.edge m i hi).2, hHm, hdm, History.after, ha, Option.toList_none, List.append_nil]

/-- An engine whose handshakes do not wait forever comes back to receiving. -/
theorem receives (h₀ : ∀ ρ, Serves ρ (d 0) (H 0)) (hmove : ∀ n, (d n).rxReady = false →
      ∃ m, n ≤ m ∧ ∃ i, inp m = some i ∧ (d m).stalls i = false) (n : ℕ) :
    ∃ m, n ≤ m ∧ (d m).rxReady = true ∧ (H m).received = (H n).received := by
  obtain ⟨ρ, hρ⟩ := e.exists_serves h₀
  cases (hρ n).2 with
  | receiving h => exact ⟨n, le_rfl, h.rxReady, rfl⟩
  | answering _ _ hf hst =>
    obtain ⟨m, hm, hdm, hrec⟩ := e.completes hmove (fun k => (hρ k).1) hf n rfl rfl
    exact ⟨m, hm, by rw [hdm, rxReady, hst], hrec⟩

end Execution

end Drain

end FpgaScope
