import FpgaScope.Engine.Serve

/-! `scope_drain` against the request protocol: in every run from reset the bytes sent
and the operations issued are those of the reference, at most cut short while an answer
is under way. The one exception is the lane buffer of a design with 513 stored bits. -/

namespace FpgaScope.Drain

open Protocol Clocked Host

variable {p : Params}

section
variable (d₀ : Drain p) (inp : ℕ → DrainIn)

/-- A run of the frame engine from reset. -/
def run : ℕ → Drain p := trace step d₀.reset inp

def history : ℕ → History
  | 0 => .empty
  | n + 1 => (history n).after (run d₀ inp n) (inp n)

theorem execution : Execution (run d₀ inp) (history d₀ inp) (fun n => some (inp n)) where
  idle := nofun
  edge := fun _ _ hi => by
    obtain rfl := Option.some.inj hi
    exact ⟨rfl, rfl⟩

/-- Nothing the engine waits for stays away: a byte it offers is taken, a command it offers is
taken, and a command it has given is answered. -/
structure Fair : Prop where
  tx : ∀ n, (run d₀ inp n).st = .emit → ∃ m, n ≤ m ∧ (inp m).txReady = true
  cmd : ∀ n, (run d₀ inp n).st = .csrPush → ∃ m, n ≤ m ∧ (inp m).cmdReady = true
  rsp : ∀ n, (run d₀ inp n).st = .csrWait → ∃ m, n ≤ m ∧ (inp m).rspValid = true

variable {d₀ inp}

/-- What the engine waits for in cycle `n` comes. -/
theorem Fair.unstalled (h : Fair d₀ inp) (n : ℕ) : ∃ m, n ≤ m ∧ (run d₀ inp n).stalls (inp m) = false := by
  unfold stalls txValid cmdValid rspReady
  cases hst : (run d₀ inp n).st with
  | emit =>
    obtain ⟨m, hm, hr⟩ := h.tx n hst
    exact ⟨m, hm, by rw [hr]; rfl⟩
  | csrPush =>
    obtain ⟨m, hm, hr⟩ := h.cmd n hst
    exact ⟨m, hm, by rw [hr]; rfl⟩
  | csrWait =>
    obtain ⟨m, hm, hr⟩ := h.rsp n hst
    exact ⟨m, hm, by rw [hr]; rfl⟩
  | _ => exact ⟨n, le_rfl, rfl⟩

theorem Fair.moves (h : Fair d₀ inp) (n : ℕ) : ∃ m, n ≤ m ∧ (run d₀ inp m).stalls (inp m) = false := by
  by_contra hno
  simp only [not_exists, not_and, Bool.not_eq_false] at hno
  have hsame : ∀ m, n ≤ m → run d₀ inp m = run d₀ inp n := by
    intro m hm
    induction m, hm using Nat.le_induction with
    | base => rfl
    | succ m hm ih => rw [← ih]; exact (step_stalled (hno m hm)).1
  obtain ⟨m, hm, hst⟩ := h.unstalled n
  rw [← hsame m hm, hno m hm] at hst
  cases hst

/-- The engine comes back to receiving. -/
theorem Fair.receives (h : Fair d₀ inp) (n : ℕ) : ∃ m, n ≤ m ∧ (run d₀ inp m).rxReady = true ∧
    (history d₀ inp m).received = (history d₀ inp n).received := by
  refine (execution d₀ inp).receives (fun _ => .start rfl) (fun n _ => ?_) n
  obtain ⟨m, hm, hst⟩ := h.moves n
  exact ⟨m, hm, inp m, rfl, hst⟩

end

/-- The frame engine follows the request protocol. In every run from reset and under any
gaps and back-pressure, the operations and the bytes are prefixes of the reference answers
to the requests among the accepted bytes; while the engine receives, everything is
answered; and if the other sides do not wait forever, it gets there. The bytes are the
reference's exactly when every drained word arrives intact. -/
theorem protocol_followed (d₀ : Drain p) (inp : ℕ → DrainIn) (n : ℕ) (ρ : ℕ → BitVec 32)
    (hρ : (history d₀ inp n).Agrees ρ) :
    let H := history d₀ inp n
    let rs := (parse H.received).1
    let ref := answer p (wordBytes p) rs ρ
    H.operations <+: ref.ops ∧ (AllIntact p rs ρ → H.emitted <+: ref.sent) ∧
    ((run d₀ inp n).rxReady = true →
      H.operations = ref.ops ∧ (H.emitted = ref.sent ↔ AllIntact p rs ρ)) ∧
    (Fair d₀ inp → ∃ m, n ≤ m ∧ (run d₀ inp m).rxReady = true ∧
      (history d₀ inp m).received = H.received) := by
  intro H rs ref
  have e := execution d₀ inp
  have h := e.serves (.start rfl) n hρ
  have hops : (H.due p ρ).ops = ref.ops := answer_ops _ _ rs ρ
  have hsent : (H.due p ρ).sent = ref.sent ↔ AllIntact p rs ρ := answer_sent_eq_iff rs ρ
  refine ⟨hops ▸ h.operations_prefix, fun hall => hsent.mpr hall ▸ h.emitted_prefix,
    fun hrx => ?_, fun hfair => hfair.receives n⟩
  obtain ⟨hs, ho⟩ := h.settled hrx
  exact ⟨ho.trans hops, by rw [hs, hsent]⟩

/-! ### A host that never waits -/

/-- The host sends `req` and nothing else; operation `k` is answered with `σ k`. -/
def promptIn (req : List Byte) (σ : ℕ → BitVec 32) (n k : ℕ) : DrainIn where
  rxData := req.getD n 0
  rxValid := decide (n < req.length)
  txReady := true
  cmdReady := true
  rspData := σ k
  rspValid := true

section
variable (d₀ : Drain p) (req : List Byte) (σ : ℕ → BitVec 32)

/-- The engine and the number of replies so far. -/
def promptRun : ℕ → Drain p × ℕ
  | 0 => (d₀.reset, 0)
  | n + 1 =>
    let s := promptRun n
    let i := promptIn req σ n s.2
    (s.1.step i, s.2 + (s.1.taken i).toList.length)

def hostIn (n : ℕ) : DrainIn := promptIn req σ n (promptRun d₀ req σ n).2

theorem hostIn_fair : Fair d₀ (hostIn d₀ req σ) where
  tx := fun n _ => ⟨n, le_rfl, rfl⟩
  cmd := fun n _ => ⟨n, le_rfl, rfl⟩
  rsp := fun n _ => ⟨n, le_rfl, rfl⟩

theorem run_hostIn (n : ℕ) : run d₀ (hostIn d₀ req σ) n = (promptRun d₀ req σ n).1 := by
  induction n with
  | zero => rfl
  | succ n ih =>
    change (run d₀ (hostIn d₀ req σ) n).step (hostIn d₀ req σ n) = _
    rw [ih]
    rfl

theorem replies_hostIn (n : ℕ) : (history d₀ (hostIn d₀ req σ) n).replies =
    (List.range (promptRun d₀ req σ n).2).map σ := by
  induction n with
  | zero => rfl
  | succ n ih =>
    rw [history, History.after, ih, run_hostIn]
    change _ = (List.range ((promptRun d₀ req σ n).2 +
      ((promptRun d₀ req σ n).1.taken (hostIn d₀ req σ n)).toList.length)).map σ
    rw [taken]
    split
    · rw [Option.toList_some, List.length_singleton, List.range_succ, List.map_append]
      rfl
    · rw [Option.toList_none, List.length_nil, List.append_nil, Nat.add_zero]

theorem agrees_hostIn (n : ℕ) : (history d₀ (hostIn d₀ req σ) n).Agrees σ := by
  intro k x hx
  rw [replies_hostIn, List.getElem?_map, Option.map_eq_some_iff] at hx
  obtain ⟨k', hk', rfl⟩ := hx
  obtain ⟨hlt, rfl⟩ := List.getElem?_eq_some_iff.mp hk'
  rw [List.getElem_range]

end

/-- Some registers to reset. -/
def blank (p : Params) : Drain p where
  st := .hunt
  retE := .hunt
  retC := .hunt
  plState := .hunt
  afterCrc := .hunt
  rx := { rCmd := 0, rLen := 0, pbuf := fun _ => 0, pidx := 0, plen := 0, crcRx := 0, crcRxGot := 0 }
  tx := { emitQ := 0, crcEnQ := false, tCmd := 0, tLen := 0, crcTx := 0, crcHold := 0 }
  op := { cWrite := false, cAddr := 0, cWdata := 0, rspQ := 0 }
  job := { statusQ := 0, tiQ := 0, tslQ := 0, tshQ := 0, rleQ := 0, wIdx := 0, tsIdx := 0, chunkQ := 0
           sampQ := 0, laneQ := 0, bidxQ := 0, laneBuf := 0 }

/-- The widest design: 512 probe bits and the encoder. -/
def widest : Params := .small 512 true (by decide)

/-- `build_frame(DRAIN)`. -/
def drainReq : List Byte := frameBytes scopeOpDrain []

/-- A buffer of zeros but for bit 512 of its first word. -/
def topBit (b : Bool) (k : ℕ) : BitVec 32 := if b && k == 22 then 1 else 0

/-- The whole request is accepted in seven cycles. -/
theorem drainReq_received : ∀ b,
    (history (blank widest) (hostIn (blank widest) drainReq (topBit b)) 7).received = drainReq := by
  decide +kernel

theorem parse_drainReq : parse drainReq = ([drainRequest], []) := by
  rw [drainReq, frameBytes_eq (Nat.zero_le _), parse_frame (Nat.zero_le _), drainRequest]

/-- With that bit clear everything arrives. -/
theorem zeros_followed : ∃ m, 7 ≤ m ∧
    (history (blank widest) (hostIn (blank widest) drainReq (topBit false)) m).emitted =
      (drain widest (wordBytes widest) (topBit false)).sent := by
  have hagrees := agrees_hostIn (blank widest) drainReq (topBit false)
  obtain ⟨-, -, -, hback⟩ := protocol_followed (blank widest) _ 7 _ (hagrees 7)
  obtain ⟨m, hm, hrx, hrec⟩ := hback (hostIn_fair _ _ _)
  obtain ⟨-, hsent⟩ := (protocol_followed (blank widest) _ m _ (hagrees m)).2.2.1 hrx
  rw [hrec, drainReq_received, parse_drainReq] at hsent
  have hall : AllIntact widest [drainRequest] (topBit false) := ⟨fun _ _ _ => Or.inr rfl, trivial⟩
  refine ⟨m, hm, (hsent.mpr hall).trans ?_⟩
  rw [answer, respond_drains _ drainRequest_drains]
  exact List.append_nil _

/-- With that bit set its byte 0 is sent as 1: the seventeenth lane overwrites the first. -/
theorem topBit_not_followed : ¬ ∀ n,
    (run (blank widest) (hostIn (blank widest) drainReq (topBit true)) n).rxReady = true →
    (history (blank widest) (hostIn (blank widest) drainReq (topBit true)) n).emitted =
      (answer widest (wordBytes widest)
        (parse (history (blank widest) (hostIn (blank widest) drainReq (topBit true)) n).received).1
        (topBit true)).sent := by
  intro hall
  have e := execution (blank widest) (hostIn (blank widest) drainReq (topBit true))
  obtain ⟨m, -, hrx, hrec⟩ := e.receives (fun _ => .start rfl) (fun n _ => by
    obtain ⟨m, hm, hst⟩ := (hostIn_fair (blank widest) drainReq (topBit true)).moves n
    exact ⟨m, hm, _, rfl, hst⟩) 7
  have h := e.serves (.start rfl) m (agrees_hostIn _ _ _ m)
  have hbad := (h.settled hrx).1.symm.trans (hall m hrx)
  rw [History.due, answer_sent_eq_iff, hrec, drainReq_received, parse_drainReq] at hbad
  rcases hbad.1 drainRequest_drains 0 (by decide) with hw | hw
  · exact absurd hw (by decide)
  · exact absurd hw (by decide)

end FpgaScope.Drain
