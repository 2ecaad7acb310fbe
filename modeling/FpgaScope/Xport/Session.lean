import FpgaScope.Engine.Recovery
import FpgaScope.Xport.Serial

/-! A host that keeps the command/response discipline over the UART. While a byte is on the line
everything asked for before has been answered, so the engine receives and the FIFO behind the
receiver is empty when the byte arrives: it never holds two. Nothing is lost, and every request is
answered. If the host has not kept the discipline, or the line was noisy, a pause and three `PING`
frames put things right. -/

namespace FpgaScope

open Protocol Clocked Host

namespace Serial

variable {p : Params} {div : ℕ}

section
variable (s₀ : Serial p div) (inp : ℕ → SerialIn)

/-- Nothing is under way: the receiver rests, the FIFO is empty and the engine receives. -/
structure Quiet (n : ℕ) : Prop where
  rx : (run s₀ inp n).uUart.rx.Rests
  fifo : backlog s₀ inp n = []
  engine : (run s₀ inp n).uDrain.rxReady = true

/-- The answers to everything received by cycle `t` and sent in `n` cycles from then on, the words of
a drain as the lane buffer of the engine packs them. -/
def dueBy (ρ : ℕ → BitVec 32) (t : ℕ) (sent : ℕ → Option Byte) (n : ℕ) : List Byte :=
  (answer p (laneBytes p) (parse ((history s₀ inp t).received ++ collect sent n)).1 ρ).sent

/-- The engine comes back to receiving without a further byte. -/
def Returns : Prop := ∀ n, ∃ m, n ≤ m ∧ (run s₀ inp m).uDrain.rxReady = true ∧
  (history s₀ inp m).received = (history s₀ inp n).received

/-- The capture domain takes the commands it is offered and answers those it has taken. -/
structure Attended : Prop where
  cmd : ∀ n, (run s₀ inp n).uDrain.st = .csrPush → ∃ m, n ≤ m ∧ (inp m).cmdWrReady = true
  rsp : ∀ n, (run s₀ inp n).uDrain.st = .csrWait → ∃ m, n ≤ m ∧ (inp m).rspRdValid = true

/-- The host begins a byte only when everything due by then has been said. -/
def Disciplined (ρ : ℕ → BitVec 32) (t : ℕ) (sent : ℕ → Option Byte) : Prop :=
  ∀ a b, sent a = some b → dueBy s₀ inp ρ t sent a <+: collect (spoken s₀ inp) (t + a)

end

variable {s₀ : Serial p div} {inp : ℕ → SerialIn} {ρ : ℕ → BitVec 32} {t : ℕ} {edge : ℕ → ℕ → ℕ}
  {sent : ℕ → Option Byte}

theorem Quiet.reset (s₀ : Serial p div) (inp : ℕ → SerialIn) : Quiet s₀ inp 0 := ⟨.reset, rfl, rfl⟩

/-! ### The FIFO behind the receiver -/

theorem push_of_silent {n : ℕ} (h : heard s₀ inp n = none) :
    (run s₀ inp n).uRxFifo.push (rxFifoIn s₀ inp n) = false := by
  have hvalid : (run s₀ inp n).uUart.rx.rxValid = false := by
    by_contra hv
    rw [heard, UartRx.signals, if_pos (Bool.not_eq_false _ ▸ hv)] at h
    cases h
  change ((run s₀ inp n).uUart.rx.rxValid && _) = false
  rw [hvalid, Bool.false_and]

/-- While the engine receives and nothing is heard, the FIFO empties. -/
theorem backlog_drains {n k : ℕ} (hr : ∀ m, n ≤ m → m ≤ n + k → (run s₀ inp m).uDrain.rxReady = true)
    (hs : ∀ m, n ≤ m → m ≤ n + k → heard s₀ inp m = none) :
    (backlog s₀ inp (n + k + 1)).length ≤ (backlog s₀ inp n).length - k := by
  refine (FifoSync.held_drains hr fun m h₁ h₂ => ?_).1
  rw [fifo_run]
  exact push_of_silent (hs m h₁ h₂)

/-- It does so when no handshake waits forever. -/
theorem returns_of_fair (hfair : Drain.Fair s₀.uDrain (engineIn s₀ inp)) : Returns s₀ inp := by
  intro n
  obtain ⟨m, hm, hrx, hrec⟩ : ∃ m, n ≤ m ∧ (Drain.run s₀.uDrain (engineIn s₀ inp) m).rxReady = true ∧
    (history s₀ inp m).received = (history s₀ inp n).received := hfair.receives n
  rw [drain_run] at hrx
  exact ⟨m, hm, hrx, hrec⟩

/-- A byte that waits in the FIFO is accepted some time. -/
theorem backlog_taken (hret : Returns s₀ inp) {n : ℕ} (hne : backlog s₀ inp n ≠ []) :
    ∃ m, n ≤ m ∧ (history s₀ inp n).received.length < (history s₀ inp m).received.length := by
  by_contra hno
  have hpop : ∀ m, n ≤ m → (run s₀ inp m).uRxFifo.pop (rxFifoIn s₀ inp m) = false := by
    intro m hm
    by_contra hpop
    refine hno ⟨m + 1, by omega, ?_⟩
    have hmono : (history s₀ inp n).received <+: (history s₀ inp m).received := received_mono hm
    have hlen := hmono.length_le
    rw [received_succ, FifoSync.poppedWord, if_pos (Bool.not_eq_false _ ▸ hpop), Option.toList_some,
      List.length_append, List.length_singleton]
    omega
  have hheld : ∀ m, n ≤ m → backlog s₀ inp m ≠ [] := by
    intro m hm
    induction m, hm using Nat.le_induction with
    | base => exact hne
    | succ m hm ih =>
      rw [backlog_succ, hpop m hm]
      exact List.append_ne_nil_of_left_ne_nil ih _
  have hstays : ∀ m, n ≤ m → (run s₀ inp m).uRxFifo.rdValid = true →
      ∀ k, m ≤ k → (run s₀ inp k).uRxFifo.rdValid = true := by
    intro m hm hv k hk
    induction k, hk using Nat.le_induction with
    | base => exact hv
    | succ k hk ih =>
      have hready : (rxFifoIn s₀ inp k).rdReady = false := by
        have h := hpop k (by omega)
        rwa [FifoSync.pop, ih, Bool.true_and] at h
      exact (FifoSync.offered_stays _ _ ih hready).1
  have hpresent := FifoSync.presented (hheld n le_rfl)
  rw [fifo_run, fifo_run] at hpresent
  have hvalid : ∀ k, n + 1 ≤ k → (run s₀ inp k).uRxFifo.rdValid = true := by
    intro k hk
    rcases hpresent with hv | hv
    · exact hstays n le_rfl hv k (by omega)
    · exact hstays (n + 1) (by omega) hv k hk
  obtain ⟨m, hm, hrx, -⟩ := hret (n + 1)
  have hready : (rxFifoIn s₀ inp m).rdReady = true := hrx
  have h := hpop m (by omega)
  rw [FifoSync.pop, hvalid m hm, hready] at h
  cases h

/-- The transmitter takes a byte again and again. -/
theorem tx_recurs (hdiv : 4 ≤ div) : Recurs fun n => (engineIn s₀ inp n).txReady = true := by
  intro n
  let tx : ℕ → UartTx div := fun k => (run s₀ inp k).uUart.tx
  let data : ℕ → Byte := fun k => (run s₀ inp k).uDrain.txData
  let valid : ℕ → Bool := fun k => (run s₀ inp k).uDrain.txValid
  have h₀ : tx 0 = .reset := rfl
  have hstep : ∀ k, tx (k + 1) = (tx k).step (data k) (valid k) := fun _ => rfl
  have htwo : 2 ≤ div := by omega
  rcases UartTx.idle_or_sending htwo h₀ hstep n with ⟨hidle, -⟩ | ⟨a, b, k, ha, hk, rfl⟩
  · exact ⟨n, le_rfl, beq_iff_eq.mpr hidle⟩
  · have hsend := UartTx.sending_run htwo hstep ha (show 10 * div - 1 < 10 * div by omega)
    refine ⟨a + 1 + (10 * div - 1) + 1, by omega, beq_iff_eq.mpr ?_⟩
    have hlast := hsend.last htwo (by omega) (data (a + 1 + (10 * div - 1))) (valid (a + 1 + (10 * div - 1)))
    rw [← hstep] at hlast
    exact hlast.1

theorem returns (hdiv : 4 ≤ div) (hatt : Attended s₀ inp) : Returns s₀ inp := by
  refine returns_of_fair ⟨fun n _ => tx_recurs hdiv n, fun n hst => ?_, fun n hst => ?_⟩
  · rw [drain_run] at hst
    exact hatt.cmd n hst
  · rw [drain_run] at hst
    exact hatt.rsp n hst

/-- Everything stored is accepted some time. -/
theorem stored_accepted (hret : Returns s₀ inp) (n : ℕ) :
    ∃ m, n ≤ m ∧ collect (stored s₀ inp) n <+: (history s₀ inp m).received := by
  have hcount : ∀ k ≤ (collect (stored s₀ inp) n).length,
      ∃ m, n ≤ m ∧ k ≤ (history s₀ inp m).received.length := by
    intro k
    induction k with
    | zero => exact fun _ => ⟨n, le_rfl, Nat.zero_le _⟩
    | succ k ih =>
      intro hk
      obtain ⟨m, hm, hle⟩ := ih (by omega)
      by_cases hmore : k + 1 ≤ (history s₀ inp m).received.length
      · exact ⟨m, hm, hmore⟩
      · have hne : backlog s₀ inp m ≠ [] := by
          intro hnil
          have hall : (history s₀ inp m).received ++ backlog s₀ inp m = _ := received_append_backlog m
          have hmono := collect_length_mono (stored s₀ inp) hm
          rw [hnil, List.append_nil] at hall
          rw [hall] at hmore
          omega
        obtain ⟨m', hm', hlt⟩ := backlog_taken hret hne
        exact ⟨m', by omega, by omega⟩
  obtain ⟨m, hm, hle⟩ := hcount _ le_rfl
  refine ⟨m, hm, List.prefix_of_prefix_length_le (collect_mono _ hm) ⟨_, received_append_backlog m⟩ hle⟩

/-- The engine answers all that was stored. -/
theorem stored_answered (hret : Returns s₀ inp) (hρ : ∀ n, (history s₀ inp n).Agrees ρ)
    (n : ℕ) : ∃ m, n ≤ m ∧ (run s₀ inp m).uDrain.rxReady = true ∧
      collect (stored s₀ inp) n <+: (history s₀ inp m).received ∧ collect (spoken s₀ inp) m =
        (answer p (laneBytes p) (parse (history s₀ inp m).received).1 ρ).sent := by
  obtain ⟨k, hk, hpre⟩ := stored_accepted hret n
  obtain ⟨m, hm, hrx, hrec⟩ := hret k
  refine ⟨m, by omega, hrx, ?_, ?_⟩
  · rw [hrec]
    exact hpre
  · rw [← emitted_eq]
    exact ((serves_run m (hρ m)).settled hrx).1

/-! ### A session -/

section Session

variable (hdiv : 4 ≤ div) (hq : Quiet s₀ inp t)
include hdiv hq

/-- From a quiet cycle on, what is heard is what was sent. -/
theorem heard_eq (hline : Timed div edge sent fun n => lineIn inp (t + n)) :
    (∀ n, heard s₀ inp (t + (n + UartRx.delay div)) = sent n) ∧
    (∀ n < UartRx.delay div, heard s₀ inp (t + n) = none) ∧
    ∀ n, collect (fun k => heard s₀ inp (t + k)) (n + UartRx.delay div) = collect sent n := by
  let rx : ℕ → UartRx div := fun n => (run s₀ inp (t + n)).uUart.rx
  have hrest : (rx 0).Rests := hq.rx
  have hstep : ∀ n, rx (n + 1) = (rx n).step (lineIn inp (t + n)) := fun _ => rfl
  exact UartRx.signals_timed hline hrest hstep hdiv

omit hdiv in
theorem received_from (n : ℕ) : (history s₀ inp (t + n)).received ++ backlog s₀ inp (t + n) =
    (history s₀ inp t).received ++ collect (fun k => stored s₀ inp (t + k)) n := by
  have h : (history s₀ inp t).received ++ backlog s₀ inp t = _ := received_append_backlog t
  rw [hq.fifo, List.append_nil] at h
  rw [received_append_backlog, collect_add, h]

variable (hline : Timed div edge sent fun n => lineIn inp (t + n))
  (hρ : ∀ n, (history s₀ inp n).Agrees ρ) (hd : Disciplined s₀ inp ρ t sent)
include hline

/-- As long as nothing was dropped the engine has received a part of what was sent. -/
theorem received_prefix {n a : ℕ} (hkept : ∀ k < n, stored s₀ inp (t + k) = heard s₀ inp (t + k))
    (hn : n ≤ a + UartRx.delay div) :
    (history s₀ inp (t + n)).received <+: (history s₀ inp t).received ++ collect sent a := by
  have hfrom := received_from hq n
  rw [collect_congr hkept] at hfrom
  have hpre : (history s₀ inp (t + n)).received <+: (history s₀ inp t).received ++
      collect (fun k => heard s₀ inp (t + k)) n := ⟨_, hfrom⟩
  refine hpre.trans (List.prefix_append_right_inj _ |>.mpr ?_)
  rw [← (heard_eq hdiv hq hline).2.2 a]
  exact collect_mono _ hn

include hρ hd

/-- From the start of a byte until it is heard the engine receives. -/
theorem engine_waits {a m : ℕ} {b : Byte} (ha : sent a = some b)
    (hkept : ∀ k < a + UartRx.delay div, stored s₀ inp (t + k) = heard s₀ inp (t + k))
    (hle : a ≤ m) (hm : m ≤ a + UartRx.delay div) : (run s₀ inp (t + m)).uDrain.rxReady = true := by
  have hdue := hd a b ha
  have hreca := received_prefix hdiv hq hline (n := a) (a := a) (fun k hk => hkept k (by omega)) (by omega)
  have hrecm := received_prefix hdiv hq hline (n := m) (a := a) (fun k hk => hkept k (by omega)) hm
  have hmono : (history s₀ inp (t + a)).received <+: (history s₀ inp (t + m)).received :=
    received_mono (by omega)
  -- everything complete by cycle `a` has been answered, and nothing is completed after it
  have hsent := Drain.Serves.emitted_prefix (serves_run (t + a) (hρ _))
  rw [emitted_eq] at hsent
  have hparse := parse_eq_of_answered p (laneBytes p) ρ hreca (hdue.trans hsent)
  have hparse' : (parse (history s₀ inp (t + m)).received).1 =
      (parse (history s₀ inp (t + a)).received).1 := by
    refine parse_eq_of_answered p (laneBytes p) ρ hmono ?_
    rw [← hparse]
    exact answer_mono p (laneBytes p) ρ hrecm
  refine (serves_run (t + m) (hρ _)).rxReady_of_sent ?_ ?_
  · rw [← drain_run]
    exact Drain.steady_run _ _ _
  · have hout := Drain.Serves.emitted_prefix (serves_run (t + m) (hρ _))
    refine List.IsPrefix.eq_of_length_le hout (List.IsPrefix.length_le ?_)
    rw [History.due, hparse', ← hparse, emitted_eq]
    exact hdue.trans (collect_mono _ (by omega))

/-- A byte that arrives finds the FIFO empty, if no two waited before. -/
theorem backlog_on_arrival {a : ℕ} {b : Byte} (ha : sent a = some b)
    (hkept : ∀ k < a + UartRx.delay div, stored s₀ inp (t + k) = heard s₀ inp (t + k))
    (hone : ∀ k ≤ a + UartRx.delay div, (backlog s₀ inp (t + k)).length ≤ 1) :
    backlog s₀ inp (t + (a + UartRx.delay div)) = [] := by
  have hspan : UartRx.delay div = UartRx.span div + 2 := rfl
  have hlong : 40 ≤ UartRx.span div := by
    unfold UartRx.span
    omega
  obtain ⟨hlate, hearly, -⟩ := heard_eq hdiv hq hline
  -- two cycles are enough, and the byte before was heard earlier
  let m₀ := a + UartRx.delay div - 2
  have hr : ∀ m, t + m₀ ≤ m → m ≤ t + m₀ + 1 → (run s₀ inp m).uDrain.rxReady = true := by
    intro m h₁ h₂
    obtain ⟨k, rfl⟩ := Nat.exists_eq_add_of_le (show t ≤ m by omega)
    exact engine_waits hdiv hq hline hρ hd ha hkept (by omega) (by omega)
  have hs : ∀ m, t + m₀ ≤ m → m ≤ t + m₀ + 1 → heard s₀ inp m = none := by
    intro m h₁ h₂
    obtain ⟨k, rfl⟩ := Nat.exists_eq_add_of_le (show t ≤ m by omega)
    by_contra hne
    obtain ⟨b', hb'⟩ := Option.ne_none_iff_exists'.mp hne
    have hlt : UartRx.delay div ≤ k := by
      by_contra hlt
      rw [hearly k (by omega)] at hb'
      cases hb'
    obtain ⟨a', rfl⟩ := Nat.exists_eq_add_of_le' hlt
    rw [hlate] at hb'
    have hapart := hline.apart a' a b' b hb' ha (by omega)
    have := UartRx.lasts hline hb'
    omega
  have hdrain := backlog_drains hr hs
  have hle := hone m₀ (by omega)
  rw [show t + m₀ + 1 + 1 = t + (a + UartRx.delay div) by omega] at hdrain
  exact List.length_eq_zero_iff.mp (by omega)

/-- Nothing is dropped, and no two bytes ever wait. -/
theorem nothing_dropped (n : ℕ) : (∀ k < n, stored s₀ inp (t + k) = heard s₀ inp (t + k)) ∧
    ∀ k ≤ n, (backlog s₀ inp (t + k)).length ≤ 1 := by
  induction n with
  | zero =>
    refine ⟨fun k hk => absurd hk (Nat.not_lt_zero k), fun k hk => ?_⟩
    obtain rfl : k = 0 := by omega
    rw [show t + 0 = t from rfl, hq.fifo]
    exact Nat.zero_le 1
  | succ n ih =>
    obtain ⟨hkept, hone⟩ := ih
    have hnow := hone n le_rfl
    have hroom : stored s₀ inp (t + n) = heard s₀ inp (t + n) := by
      rw [stored_eq, if_neg (by omega)]
    refine ⟨fun k hk => ?_, fun k hk => ?_⟩
    · rcases Nat.lt_succ_iff_lt_or_eq.mp hk with hlt | rfl
      · exact hkept k hlt
      · exact hroom
    · rcases Nat.lt_or_ge k (n + 1) with hlt | hge
      · exact hone k (by omega)
      · obtain rfl : k = n + 1 := by omega
        rw [← Nat.add_assoc, backlog_succ, Queue.next, hroom, List.length_append, List.length_drop]
        cases hh : heard s₀ inp (t + n) with
        | none =>
          rw [Option.toList_none, List.length_nil]
          omega
        | some b =>
          obtain ⟨hlate, hearly, -⟩ := heard_eq hdiv hq hline
          have hlt : UartRx.delay div ≤ n := by
            by_contra hlt
            rw [hearly n (by omega)] at hh
            cases hh
          obtain ⟨a, rfl⟩ := Nat.exists_eq_add_of_le' hlt
          rw [hlate] at hh
          rw [backlog_on_arrival hdiv hq hline hρ hd hh hkept hone, List.length_nil, Nat.zero_sub,
            Option.toList_some, List.length_singleton]

/-- The engine has received what was sent, but for the byte that waits. -/
theorem received_sent (n : ℕ) : (history s₀ inp (t + (n + UartRx.delay div))).received ++
    backlog s₀ inp (t + (n + UartRx.delay div)) = (history s₀ inp t).received ++ collect sent n := by
  rw [received_from hq, collect_congr (nothing_dropped hdiv hq hline hρ hd _).1, (heard_eq hdiv hq hline).2.2]

/-- What is said is among the answers due. -/
theorem spoken_prefix (n : ℕ) : collect (spoken s₀ inp) (t + n) <+: dueBy s₀ inp ρ t sent n := by
  have hrec := received_prefix hdiv hq hline (n := n) (a := n)
    (nothing_dropped hdiv hq hline hρ hd n).1 (Nat.le_add_right n _)
  have hpre := Drain.Serves.emitted_prefix (serves_run (t + n) (hρ _))
  rw [emitted_eq] at hpre
  exact hpre.trans (answer_mono p (laneBytes p) ρ hrec)

/-- All that was sent is answered. -/
theorem sent_answered (hret : Returns s₀ inp) (n : ℕ) : ∃ m, n + UartRx.delay div ≤ m ∧
      (run s₀ inp (t + m)).uDrain.rxReady = true ∧
      (history s₀ inp t).received ++ collect sent n <+: (history s₀ inp (t + m)).received ∧
      collect (spoken s₀ inp) (t + m) =
        (answer p (laneBytes p) (parse (history s₀ inp (t + m)).received).1 ρ).sent := by
  obtain ⟨m, hm, hrx, hpre, hsaid⟩ :=
    stored_answered hret hρ (t + (n + UartRx.delay div))
  rw [← received_append_backlog, received_sent hdiv hq hline hρ hd] at hpre
  obtain ⟨k, rfl⟩ := Nat.exists_eq_add_of_le (show t ≤ m by omega)
  exact ⟨k, by omega, hrx, hpre, hsaid⟩

end Session

/-- A session over the UART. From any quiet cycle on, for a line whose frames keep the samples
within their bits and a host that begins a byte only when everything due has been said: the FIFO
never holds two bytes, nothing is lost or reordered on the way to the engine, what is said is a
prefix of the answers to what was sent, and if the capture domain attends to the commands all of them
are said. The words of a drain are packed by the engine's own lane buffer: in a design of 513 stored
bits these answers are the documented ones for intact words only. -/
theorem session (hdiv : 4 ≤ div) (s₀ : Serial p div) (inp : ℕ → SerialIn) (t : ℕ) (edge : ℕ → ℕ → ℕ)
    (sent : ℕ → Option Byte) (ρ : ℕ → BitVec 32) (hq : Quiet s₀ inp t)
    (hline : Timed div edge sent fun n => lineIn inp (t + n)) (hρ : ∀ n, (history s₀ inp n).Agrees ρ)
    (hd : Disciplined s₀ inp ρ t sent) (n : ℕ) :
    (backlog s₀ inp (t + n)).length ≤ 1 ∧
    (history s₀ inp (t + (n + UartRx.delay div))).received ++
      backlog s₀ inp (t + (n + UartRx.delay div)) = (history s₀ inp t).received ++ collect sent n ∧
    collect (spoken s₀ inp) (t + n) <+: dueBy s₀ inp ρ t sent n ∧
    (Attended s₀ inp → ∃ m, n ≤ m ∧ dueBy s₀ inp ρ t sent n <+: collect (spoken s₀ inp) (t + m)) := by
  refine ⟨(nothing_dropped hdiv hq hline hρ hd n).2 n le_rfl, received_sent hdiv hq hline hρ hd n,
    spoken_prefix hdiv hq hline hρ hd n, fun hatt => ?_⟩
  obtain ⟨m, hm, -, hpre, hsaid⟩ := sent_answered hdiv hq hline hρ hd (returns hdiv hatt) n
  refine ⟨m, by omega, ?_⟩
  rw [hsaid]
  exact answer_mono p (laneBytes p) ρ hpre

/-- No part of a `PING` is a request. -/
theorem parse_take_ping {k : ℕ} (hk : k < 7) : (parse (ping.take k)).1 = [] := by
  have hnone : ∀ k < 7, next (ping.take k) = none := by
    rw [ping_eq]
    decide
  rw [parse_none (hnone k hk)]

theorem session_ping : ∃ m, (answer Drain.widest (laneBytes Drain.widest) (parse ping).1 fun _ => 0).sent <+:
    collect (spoken (blank Drain.widest 16) (burstIn 17 170 ping)) m := by
  have hburst := fun n => collect_burst (show 0 < 170 by decide) ping n
  have hd : Disciplined (blank Drain.widest 16) (burstIn 17 170 ping) (fun _ => 0) 0 (burstSent 170 ping) := by
    intro a b ha
    obtain ⟨hmod, hget⟩ := burstSent_cases ha
    obtain ⟨hlt, -⟩ := List.getElem?_eq_some_iff.mp hget
    rw [ping_eq] at hlt
    change (answer Drain.widest (laneBytes Drain.widest) (parse ([] ++ collect (burstSent 170 ping) a)).1
      fun _ => 0).sent <+: _
    rw [List.nil_append, hburst, parse_take_ping (by simp only [List.length] at hlt; omega)]
    exact List.nil_prefix
  have hall := (session (show 4 ≤ 16 by decide) (blank Drain.widest 16) (burstIn 17 170 ping) 0
    (fun a i => a + i * 17) (burstSent 170 ping) (fun _ => 0) (.reset _ _)
    (by
      simp only [lineIn, burstIn, Nat.zero_add]
      exact (Paced.burst (by decide) (by decide) ping).timed (by decide) (by decide) (by decide))
    (zeros_agree fun _ => rfl) hd 1021).2.2.2 ⟨fun n _ => ⟨n, le_rfl, rfl⟩, fun n _ => ⟨n, le_rfl, rfl⟩⟩
  obtain ⟨m, -, hm⟩ := hall
  have hsent : collect (burstSent 170 ping) 1021 = ping := by
    rw [hburst, ping_eq]
    rfl
  refine ⟨m, ?_⟩
  rw [dueBy, hsent, Nat.zero_add] at hm
  exact hm

end Serial

end FpgaScope
