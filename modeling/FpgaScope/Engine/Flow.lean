import FpgaScope.Protocol.Response

/-! The frame engine between two requests, with its waiting left out. While it answers,
a cycle is either a stall, which changes nothing, or the one move that the state allows;
`Flow` strings moves together with the bytes sent and the operations issued on the way.
The replies are a numbered stream. -/

namespace FpgaScope.Drain

open Protocol Host

variable {p : Params}

/-! ### Handshakes -/

/-- The byte accepted, the byte sent, the operation issued and the reply taken in a cycle. -/
def accepted (d : Drain p) (i : DrainIn) : Option Byte :=
  if d.rxReady && i.rxValid then some i.rxData else none

def sent (d : Drain p) (i : DrainIn) : Option Byte :=
  if d.txValid && i.txReady then some d.txData else none

def issued (d : Drain p) (i : DrainIn) : Option CsrOp :=
  if d.cmdValid && i.cmdReady then some d.cmdOp else none

def taken (d : Drain p) (i : DrainIn) : Option (BitVec 32) :=
  if d.rspReady && i.rspValid then some i.rspData else none

/-- The other side of the handshake in progress is not ready. -/
def stalls (d : Drain p) (i : DrainIn) : Bool :=
  (d.txValid && !i.txReady) || (d.cmdValid && !i.cmdReady) || (d.rspReady && !i.rspValid)

/-- What the engine offers in a cycle. -/
def offers (d : Drain p) : List Byte := if d.txValid then [d.txData] else []

def requests (d : Drain p) : List CsrOp := if d.cmdValid then [d.cmdOp] else []

/-- A cycle in which nothing has to wait. -/
def prompt (r : BitVec 32) : DrainIn where
  rxData := 0
  rxValid := false
  txReady := true
  cmdReady := true
  rspData := r
  rspValid := true

/-- The move of an engine that is not receiving; `r` is the reply it may take. -/
def move (d : Drain p) (r : BitVec 32) : Drain p := d.step (prompt r)

theorem step_stalled {d : Drain p} {i : DrainIn} (h : d.stalls i = true) :
    d.step i = d ∧ d.accepted i = none ∧ d.sent i = none ∧ d.issued i = none ∧
      d.taken i = none := by
  unfold stalls txValid cmdValid rspReady at h
  unfold step accepted sent issued taken rxReady txValid cmdValid rspReady
  cases hs : d.st with
  | csrPush | csrWait | emit => simp_all
  | _ => simp [hs] at h

theorem step_moving {d : Drain p} {i : DrainIn} (hrx : d.rxReady = false)
    (h : d.stalls i = false) {r : BitVec 32} (hr : ∀ x, d.taken i = some x → x = r) :
    d.step i = d.move r ∧ d.accepted i = none ∧ (d.sent i).toList = d.offers ∧
      (d.issued i).toList = d.requests ∧ (d.taken i).toList.length = d.rspReady.toNat := by
  unfold stalls txValid cmdValid rspReady at h
  unfold rxReady at hrx
  unfold move step accepted sent issued taken offers requests rxReady txValid cmdValid rspReady prompt
  unfold taken rspReady at hr
  cases hs : d.st with
  | hunt | sync1 | rcmd | rlenh | rlenl | rpay | rcrch | rcrcl => simp [hs] at hrx
  | csrPush | emit =>
    simp_all
    rfl
  | csrWait => simp_all
  | _ =>
    simp
    rfl

/-! ### Flows -/

/-- From `d`, with `j` replies taken, moves lead to `d'` with `j'` replies taken. -/
inductive Flow (ρ : ℕ → BitVec 32) :
    Drain p → ℕ → List Byte → List CsrOp → Drain p → ℕ → Prop
  | refl (d : Drain p) (j : ℕ) : Flow ρ d j [] [] d j
  | move {d : Drain p} {j : ℕ} {bs : List Byte} {os : List CsrOp} {d' : Drain p} {j' : ℕ}
      (hrx : d.rxReady = false) (h : Flow ρ (d.move (ρ j)) (j + d.rspReady.toNat) bs os d' j') :
      Flow ρ d j (d.offers ++ bs) (d.requests ++ os) d' j'

namespace Flow

variable {ρ : ℕ → BitVec 32} {d e d' d'' : Drain p} {j j' j'' : ℕ} {bs bs' : List Byte}
  {os os' : List CsrOp}

theorem trans (h : Flow ρ d j bs os d' j') (h' : Flow ρ d' j' bs' os' d'' j'') :
    Flow ρ d j (bs ++ bs') (os ++ os') d'' j'' := by
  induction h with
  | refl => exact h'
  | move hrx _ ih =>
    rw [List.append_assoc, List.append_assoc]
    exact .move hrx (ih h')

/-- A flow that does not end here begins with a move. -/
theorem begins (h : Flow ρ d j bs os d' j') (hne : d'.st ≠ d.st) :
    ∃ bs' os', bs = d.offers ++ bs' ∧ os = d.requests ++ os' ∧
      Flow ρ (d.move (ρ j)) (j + d.rspReady.toNat) bs' os' d' j' := by
  cases h with
  | refl => exact absurd rfl hne
  | move _ h => exact ⟨_, _, rfl, rfl, h⟩

/-- A flow takes a reply for every operation it issues, and one more if it starts waiting. -/
theorem owed (h : Flow ρ d j bs os d' j') (hst : d'.st ≠ .csrWait) :
    j + os.length + d.rspReady.toNat ≤ j' := by
  induction h with
  | refl d j =>
    have hr : d.rspReady = false := by simpa [rspReady] using hst
    rw [hr]
    exact le_rfl
  | @move d j bs os d' j' hrx _ ih =>
    have hnext : d.requests.length ≤ (d.move (ρ j)).rspReady.toNat := by
      unfold requests cmdValid
      cases hs : d.st with
      | csrPush =>
        have hm : (d.move (ρ j)).st = .csrWait := by
          rw [Drain.move, step, hs]
          rfl
        rw [rspReady, hm]
        exact le_rfl
      | _ => exact Nat.zero_le _
    have := ih hst
    rw [List.length_append]
    omega

end Flow

/-- Stretches of a run that can be put one after the other, the bytes and the operations with them. -/
structure Composes (R : Drain p → ℕ → List Byte → List CsrOp → Drain p → ℕ → Prop) : Prop where
  refl : ∀ d j, R d j [] [] d j
  trans : ∀ {d j bs os d' j' bs' os' d'' j''}, R d j bs os d' j' → R d' j' bs' os' d'' j'' →
    R d j (bs ++ bs') (os ++ os') d'' j''

theorem Flow.composes (ρ : ℕ → BitVec 32) : Composes (p := p) (Flow ρ) := ⟨.refl, .trans⟩

/-- A loop: `I i` holds before turn `i`. -/
theorem Composes.loop {R : Drain p → ℕ → List Byte → List CsrOp → Drain p → ℕ → Prop} (h : Composes R)
    (I : ℕ → Drain p → Prop) (bs : ℕ → List Byte) (os : ℕ → List CsrOp) (k : ℕ → ℕ) {d : Drain p} {n : ℕ}
    (hturn : ∀ i < n, ∀ d, I i d → ∃ d', R d (k i) (bs i) (os i) d' (k (i + 1)) ∧ I (i + 1) d') (h₀ : I 0 d) :
    ∃ d', R d (k 0) ((List.range n).flatMap bs) ((List.range n).flatMap os) d' (k n) ∧ I n d' := by
  induction n with
  | zero => exact ⟨d, h.refl _ _, h₀⟩
  | succ n ih =>
    obtain ⟨d₁, hf₁, h₁⟩ := ih fun i hi => hturn i (by omega)
    obtain ⟨d₂, hf₂, h₂⟩ := hturn n (by omega) d₁ h₁
    refine ⟨d₂, ?_, h₂⟩
    rw [List.range_succ, List.flatMap_append, List.flatMap_append, List.flatMap_singleton,
      List.flatMap_singleton]
    exact h.trans hf₁ hf₂

/-- A state in which the engine neither receives nor waits. -/
def Internal (s : DrainSt) : Prop :=
  match s with
  | .hunt | .sync1 | .rcmd | .rlenh | .rlenl | .rpay | .rcrch | .rcrcl => False
  | .csrPush | .csrWait | .emit => False
  | _ => True

/-- The engine after the byte it offers is taken. -/
def afterSend (d : Drain p) : Drain p :=
  { d with
    tx.crcTx := if d.tx.crcEnQ then crc16CcittByte d.tx.crcTx d.tx.emitQ else d.tx.crcTx
    st := d.retE }

/-- The engine after the operation it offers is issued and answered. -/
def afterOp (d : Drain p) (r : BitVec 32) : Drain p := { d with op.rspQ := r, st := d.retC }

namespace Flow

variable {ρ : ℕ → BitVec 32} {d e d' : Drain p} {j : ℕ}

/-- A move without a handshake. -/
theorem quiet (hs : Internal d.st) (h : d.move (ρ j) = e) : Flow ρ d j [] [] e j := by
  subst h
  have hrx : d.rxReady = false := by
    unfold rxReady Internal at *
    split at hs <;> simp_all
  have ho : d.offers = [] ∧ d.requests = [] ∧ d.rspReady = false := by
    unfold offers requests rspReady txValid cmdValid Internal at *
    split at hs <;> simp_all
  have hf := Flow.move (ρ := ρ) (j := j) hrx (Flow.refl _ _)
  rw [ho.1, ho.2.1, ho.2.2] at hf
  exact hf

/-- A move that hands a byte to the emitter, and its sending. -/
theorem send (hs : Internal d.st) (h : d.move (ρ j) = e) (he : e.st = .emit) :
    Flow ρ d j [e.tx.emitQ] [] e.afterSend j := by
  have hrx : e.rxReady = false := by rw [rxReady, he]
  have hm : e.move (ρ j) = e.afterSend := by
    rw [Drain.move, step, he]
    rfl
  have hf := Flow.move (ρ := ρ) (j := j) hrx (Flow.refl _ _)
  rw [hm] at hf
  have ho : e.offers = [e.tx.emitQ] ∧ e.requests = [] ∧ e.rspReady = false := by
    unfold offers requests rspReady txValid cmdValid
    rw [he]
    exact ⟨rfl, rfl, rfl⟩
  rw [ho.1, ho.2.1, ho.2.2] at hf
  exact (quiet hs h).trans hf

/-- A move that starts an operation, its issue and its reply. -/
theorem call (hs : Internal d.st) (h : d.move (ρ j) = e) (he : e.st = .csrPush) :
    Flow ρ d j [] [e.cmdOp] (e.afterOp (ρ j)) (j + 1) := by
  have hpush : Flow ρ e j [] [e.cmdOp] { e with st := .csrWait } j := by
    have hrx : e.rxReady = false := by rw [rxReady, he]
    have hm : e.move (ρ j) = { e with st := .csrWait } := by
      rw [Drain.move, step, he]
      rfl
    have hf := Flow.move (ρ := ρ) (j := j) hrx (Flow.refl _ _)
    rw [hm] at hf
    have ho : e.offers = [] ∧ e.requests = [e.cmdOp] ∧ e.rspReady = false := by
      unfold offers requests rspReady txValid cmdValid
      rw [he]
      exact ⟨rfl, rfl, rfl⟩
    rw [ho.1, ho.2.1, ho.2.2] at hf
    exact hf
  have hwait : Flow ρ { e with st := .csrWait } j [] [] (e.afterOp (ρ j)) (j + 1) :=
    .move (d := { e with st := .csrWait }) rfl (.refl _ _)
  exact ((quiet hs h).trans hpush).trans hwait

end Flow

end FpgaScope.Drain
