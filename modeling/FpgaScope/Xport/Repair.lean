import FpgaScope.Xport.Session

/-! A UART link put right. Whatever was on the line, once it stays high everything comes to rest, as
long as the capture domain does not wait forever; three `PING` frames sent with discipline from any
cycle then on are the last that is needed. A host can always keep the discipline: it waits until what
is due has been said. -/

namespace FpgaScope

open Protocol Clocked Host

namespace Serial

variable {p : Params} {div : ℕ} {s₀ : Serial p div} {inp inp' : ℕ → SerialIn} {t : ℕ}

/-! ### Runs with the same beginning -/

theorem run_congr {n : ℕ} (h : ∀ k < n, inp k = inp' k) : run s₀ inp n = run s₀ inp' n :=
  trace_congr step s₀.reset h

theorem collect_spoken_congr {n : ℕ} (h : ∀ k < n, inp k = inp' k) :
    collect (spoken s₀ inp) n = collect (spoken s₀ inp') n := by
  refine collect_congr fun k hk => ?_
  have hrun : run s₀ inp k = run s₀ inp' k := run_congr fun j hj => h j (by omega)
  rw [spoken, spoken, engineIn, engineIn, hrun, h k hk]

theorem backlog_congr {n : ℕ} (h : ∀ k < n, inp k = inp' k) : backlog s₀ inp n = backlog s₀ inp' n := by
  induction n with
  | zero => rfl
  | succ n ih =>
    have hrun : run s₀ inp n = run s₀ inp' n := run_congr fun j hj => h j (by omega)
    rw [backlog_succ, backlog_succ, ih fun k hk => h k (by omega), stored, stored, rxFifoIn, rxFifoIn, hrun]

theorem received_congr {n : ℕ} (h : ∀ k < n, inp k = inp' k) :
    (history s₀ inp n).received = (history s₀ inp' n).received := by
  induction n with
  | zero => rfl
  | succ n ih =>
    have hrun : run s₀ inp n = run s₀ inp' n := run_congr fun j hj => h j (by omega)
    rw [received_succ, received_succ, ih fun k hk => h k (by omega), rxFifoIn, rxFifoIn, hrun]

theorem Quiet.congr (h : Quiet s₀ inp t) (hsame : ∀ k < t, inp k = inp' k) : Quiet s₀ inp' t where
  rx := by
    rw [← run_congr hsame]
    exact h.rx
  fifo := by
    rw [← backlog_congr hsame]
    exact h.fifo
  engine := by
    rw [← run_congr hsame]
    exact h.engine

/-! ### A line that stays high -/

/-- Everything comes to rest and stays there. -/
theorem quiet_comes (hdiv : 4 ≤ div) (hhigh : ∀ n, t ≤ n → lineIn inp n = true)
    (hret : Returns s₀ inp) : ∃ W, t ≤ W ∧ ∀ T, W ≤ T → Quiet s₀ inp T := by
  have hrests : ∀ n, t + UartRx.settle div ≤ n → (run s₀ inp n).uUart.rx.Rests := by
    intro n hn
    have h := UartRx.rests_run hdiv (lineIn inp) (t := n - UartRx.settle div) fun k _ => hhigh _ (by omega)
    rwa [Nat.sub_add_cancel (by omega), ← rx_run] at h
  have hstored : ∀ n, t + UartRx.settle div ≤ n → stored s₀ inp n = none := by
    intro n hn
    have hheard : heard s₀ inp n = none := if_neg (by rw [(hrests n hn).valid]; exact Bool.false_ne_true)
    rw [stored_eq, hheard, ite_self]
  have htotal : ∀ n, t + UartRx.settle div ≤ n →
      collect (stored s₀ inp) n = collect (stored s₀ inp) (t + UartRx.settle div) := by
    intro n hn
    induction n, hn using Nat.le_induction with
    | base => rfl
    | succ n hn ih => rw [collect_none (hstored n hn), ih]
  obtain ⟨k, hk, hpre⟩ := stored_accepted hret (t + UartRx.settle div)
  obtain ⟨m, hm, hrx, hrec⟩ := hret k
  have hnil : backlog s₀ inp m = [] := by
    have hall : (history s₀ inp m).received ++ backlog s₀ inp m = _ := received_append_backlog m
    rw [htotal m (by omega)] at hall
    rw [← hrec, ← hall] at hpre
    have hlen := hpre.length_le
    rw [List.length_append] at hlen
    exact List.length_eq_zero_iff.mp (by omega)
  have hstays : ∀ T, m ≤ T → backlog s₀ inp T = [] ∧ (run s₀ inp T).uDrain.rxReady = true := by
    intro T hT
    induction T, hT using Nat.le_induction with
    | base => exact ⟨hnil, hrx⟩
    | succ T hT ih =>
      obtain ⟨hempty, hready⟩ := ih
      obtain ⟨r, l, h⟩ : ∃ r l, FifoSync.Holds (run s₀ inp T).uRxFifo (backlog s₀ inp T) r l := holds_run T
      have hvalid : (run s₀ inp T).uRxFifo.rdValid = false := by
        by_contra hv
        exact h.nonempty (Bool.not_eq_false _ ▸ hv) hempty
      refine ⟨?_, ?_⟩
      · rw [backlog_succ, hempty, hstored T (by omega), Queue.next, List.drop_nil]
        rfl
      · have hsame : (run s₀ inp (T + 1)).uDrain = (run s₀ inp T).uDrain := Drain.step_silent hready hvalid
        rw [hsame, hready]
  exact ⟨m, by omega, fun T hT => ⟨hrests T (by omega), (hstays T hT).1, (hstays T hT).2⟩⟩

/-! ### Three pings -/

/-- Once three `PING` frames have been sent with discipline, the engine hunts and has said an answer to
the third after everything else. -/
theorem Quiet.pinged (hdiv : 4 ≤ div) (hq : Quiet s₀ inp t) {edge : ℕ → ℕ → ℕ} {sent : ℕ → Option Byte}
    {ρ : ℕ → BitVec 32} (hline : Timed div edge sent fun n => lineIn inp (t + n))
    (hρ : ∀ n, (history s₀ inp n).Agrees ρ) (hd : Disciplined s₀ inp ρ t sent) (hret : Returns s₀ inp)
    {N : ℕ} (hall : ∀ n, N ≤ n → collect sent n = ping ++ ping ++ ping) :
    ∃ m, t ≤ m ∧ (run s₀ inp m).uDrain.st = .hunt ∧ collect (spoken s₀ inp) m =
      (answer p (laneBytes p) (parse ((history s₀ inp t).received ++ (ping ++ ping))).1 ρ).sent ++
        pingReply p := by
  obtain ⟨m, hm, hrx, hpre, hsaid⟩ := sent_answered hdiv hq hline hρ hd hret N
  -- nothing but the three frames has been received from `t` on
  have hrec : (history s₀ inp (t + m)).received =
      (history s₀ inp t).received ++ (ping ++ ping) ++ ping := by
    obtain ⟨n, rfl⟩ := Nat.exists_eq_add_of_le' (show UartRx.delay div ≤ m by omega)
    have hwhole := received_sent hdiv hq hline hρ hd n
    rw [hall n (by omega)] at hwhole
    rw [hall N le_rfl] at hpre
    rw [List.append_assoc]
    exact (hpre.eq_of_length_le (List.IsPrefix.length_le ⟨_, hwhole⟩)).symm
  have hidle : Idle (parse (history s₀ inp (t + m)).received).2 := by
    rw [hrec, List.append_assoc, List.append_assoc, ← List.append_assoc]
    exact idle_pings _
  have hidle₂ := idle_pings (history s₀ inp t).received
  have hparse : (parse (history s₀ inp (t + m)).received).1 =
      (parse ((history s₀ inp t).received ++ (ping ++ ping))).1 ++ [pingRequest] := by
    rw [hrec, parse_append, parse_some (next_ping hidle₂.1), show parse [] = ([], []) from parse_none rfl]
  have hsnoc := answer_snoc p (laneBytes p) (parse ((history s₀ inp t).received ++ (ping ++ ping))).1
    pingRequest ρ
  simp only [respond_ping, List.append_nil] at hsnoc
  refine ⟨t + m, Nat.le_add_right t m, (serves_run _ (hρ _)).hunts hidle hrx, ?_⟩
  rw [hsaid, hparse, hsnoc]

/-! ### A host that waits -/

/-- The capture domain takes every command and answers with zeros. -/
def ZeroSide (inp : ℕ → SerialIn) : Prop :=
  ∀ n, (inp n).cmdWrReady = true ∧ (inp n).rspRdValid = true ∧ (inp n).rspRdData = 0

theorem ZeroSide.attended {inp : ℕ → SerialIn} (h : ZeroSide inp) : Attended s₀ inp where
  cmd n _ := ⟨n, le_rfl, (h n).1⟩
  rsp n _ := ⟨n, le_rfl, (h n).2.1⟩

/-- By cycle `t + N` the host has sent `msg` with discipline, and the line is high again. -/
structure Told (s₀ : Serial p div) (inp : ℕ → SerialIn) (t : ℕ) (sent : ℕ → Option Byte) (msg : List Byte)
    (N : ℕ) : Prop where
  line : Paced div sent fun n => lineIn inp (t + n)
  disciplined : Disciplined s₀ inp (fun _ => 0) t sent
  past : ∀ a b, sent a = some b → a + 10 * div ≤ N
  total : collect sent N = msg

section
variable {sent : ℕ → Option Byte} {msg : List Byte} {N : ℕ} (hdiv : 4 ≤ div) (h : Told s₀ inp t sent msg N)
include hdiv h

theorem Told.after {n : ℕ} (hn : N ≤ n) : sent n = none := by
  by_contra hne
  obtain ⟨b, hb⟩ := Option.ne_none_iff_exists'.mp hne
  have := h.past n b hb
  omega

theorem Told.whole {n : ℕ} (hn : N ≤ n) : collect sent n = msg := by
  induction n, hn using Nat.le_induction with
  | base => exact h.total
  | succ n hn ih => rw [collect_none (h.after hdiv hn), ih]

theorem Told.timed : Timed div (fun a i => a + i * div) sent fun n => lineIn inp (t + n) := by
  have hmid : UartRx.middle div 9 = div / 2 + 1 + div * 9 := rfl
  exact h.line.timed hdiv (by omega) (by omega)

end

/-- The byte `b` on the line from cycle `c` on. -/
def sayAt (div : ℕ) (inp : ℕ → SerialIn) (c : ℕ) (b : Byte) (n : ℕ) : SerialIn :=
  if c ≤ n ∧ n < c + 10 * div then { inp n with uartRx := lineBit b ((n - c) / div) } else inp n

theorem sayAt_before {c n : ℕ} (b : Byte) (h : n < c) : inp n = sayAt div inp c b n := by
  rw [sayAt, if_neg (by omega)]

/-- A host that waits can say one more byte. -/
theorem Told.next (hdiv : 4 ≤ div) (hq : Quiet s₀ inp t) (hzero : ZeroSide inp) {sent : ℕ → Option Byte}
    {msg : List Byte} {N : ℕ} (h : Told s₀ inp t sent msg N) (b : Byte) :
    ∃ inp' sent' N', (∀ k < t, inp k = inp' k) ∧ ZeroSide inp' ∧ Told s₀ inp' t sent' (msg ++ [b]) N' := by
  have hρ : ∀ n, (history s₀ inp n).Agrees fun _ => 0 := zeros_agree fun n => (hzero n).2.2
  obtain ⟨A, hA, -, hpre, hsaid⟩ := sent_answered hdiv hq (h.timed hdiv) hρ h.disciplined
    (returns hdiv hzero.attended) N
  have hnone : sent A = none := h.after hdiv (by omega)
  have hsame : ∀ k < t + A, inp k = sayAt div inp (t + A) b k := fun k hk => sayAt_before b hk
  have hfirst : ∀ a ≤ A, collect (Function.update sent A (some b)) a = collect sent a := fun a ha =>
    collect_congr fun k hk => Function.update_of_ne (by omega) _ _
  have hdue : ∀ a ≤ A, dueBy s₀ (sayAt div inp (t + A) b) (fun _ => 0) t (Function.update sent A (some b)) a =
      dueBy s₀ inp (fun _ => 0) t sent a := by
    intro a ha
    rw [dueBy, dueBy, hfirst a ha, received_congr fun k hk => hsame k (by omega)]
  have hline : ∀ n, lineIn (sayAt div inp (t + A) b) (t + n) =
      if A ≤ n ∧ n < A + 10 * div then lineBit b ((n - A) / div) else lineIn inp (t + n) := by
    intro n
    rw [lineIn, sayAt]
    by_cases hn : A ≤ n ∧ n < A + 10 * div
    · rw [if_pos (by omega), if_pos hn, show t + n - (t + A) = n - A by omega]
    · rw [if_neg (by omega), if_neg hn, lineIn]
  have hsent : ∀ a b', Function.update sent A (some b) a = some b' →
      (a = A ∧ b' = b) ∨ (a + 10 * div ≤ A ∧ sent a = some b') := by
    intro a b' ha
    by_cases hlast : a = A
    · rw [hlast, Function.update_self, Option.some_inj] at ha
      exact Or.inl ⟨hlast, ha.symm⟩
    · rw [Function.update_of_ne hlast] at ha
      exact Or.inr ⟨(h.past a b' ha).trans (by omega), ha⟩
  refine ⟨sayAt div inp (t + A) b, Function.update sent A (some b), A + 10 * div, fun k hk => hsame k (by omega),
    fun n => ?_, ⟨⟨fun a b' k ha hk => ?_, fun n hlow => ?_, fun a a' b' b'' ha ha' hlt => ?_⟩, fun a b' ha => ?_,
      fun a b' ha => ?_, ?_⟩⟩
  · unfold sayAt
    split
    · exact hzero n
    · exact hzero n
  · rw [hline]
    rcases hsent a b' ha with ⟨rfl, rfl⟩ | ⟨hpast, ha⟩
    · rw [if_pos (by omega), Nat.add_sub_cancel_left]
    · rw [if_neg (by omega)]
      exact h.line.bit a b' k ha hk
  · rw [hline] at hlow
    by_cases hn : A ≤ n ∧ n < A + 10 * div
    · exact ⟨A, b, n - A, Function.update_self .., by omega, by omega⟩
    · rw [if_neg hn] at hlow
      obtain ⟨a, b', k, ha, hk, hak⟩ := h.line.idle n hlow
      have hne : a ≠ A := by
        rintro rfl
        rw [hnone] at ha
        cases ha
      exact ⟨a, b', k, (Function.update_of_ne hne ..).trans ha, hk, hak⟩
  · rcases hsent a b' ha with ⟨rfl, -⟩ | ⟨hpast, hold⟩
    · rcases hsent a' b'' ha' with ⟨rfl, -⟩ | ⟨hpast, -⟩
      · omega
      · omega
    · rcases hsent a' b'' ha' with ⟨rfl, -⟩ | ⟨-, hold'⟩
      · exact hpast
      · exact h.line.apart a a' b' b'' hold hold' hlt
  · rcases hsent a b' ha with ⟨rfl, -⟩ | ⟨hpast, hold⟩
    · rw [hdue a le_rfl, ← collect_spoken_congr hsame, hsaid, dueBy, h.whole hdiv (by omega), ← h.total]
      exact answer_mono p (laneBytes p) _ hpre
    · rw [hdue a (by omega), ← collect_spoken_congr fun k hk => hsame k (by omega)]
      exact h.disciplined a b' hold
  · rcases hsent a b' ha with ⟨rfl, -⟩ | ⟨hpast, -⟩
    · exact le_rfl
    · omega
  · have hquiet : ∀ k < 10 * div - 1, Function.update sent A (some b) (A + 1 + k) = none := by
      intro k hk
      rw [Function.update_of_ne (by omega)]
      exact h.after hdiv (by omega)
    rw [show A + 10 * div = A + 1 + (10 * div - 1) by omega, collect_add, collect_quiet hquiet, List.append_nil,
      collect_some (Function.update_self ..), hfirst A le_rfl, h.whole hdiv (by omega)]

/-- Any message can be sent with discipline. -/
theorem Quiet.tells (hdiv : 4 ≤ div) (hq : Quiet s₀ inp t) (hhigh : ∀ n, t ≤ n → lineIn inp n = true)
    (hzero : ZeroSide inp) (msg : List Byte) :
    ∃ inp' sent N, (∀ k < t, inp k = inp' k) ∧ ZeroSide inp' ∧ Told s₀ inp' t sent msg N := by
  induction msg using List.reverseRecOn with
  | nil =>
    refine ⟨inp, fun _ => none, 0, fun _ _ => rfl, hzero, ⟨nofun, fun n hlow => ?_, nofun⟩, nofun, nofun, rfl⟩
    rw [hhigh _ (Nat.le_add_right t n)] at hlow
    cases hlow
  | append_singleton msg b ih =>
    obtain ⟨inp', sent, N, hsame, hzero', htold⟩ := ih
    obtain ⟨inp'', sent', N', hsame', hzero'', htold'⟩ := htold.next hdiv (hq.congr hsame) hzero' b
    exact ⟨inp'', sent', N', fun k hk => (hsame k hk).trans (hsame' k hk), hzero'', htold'⟩

/-- Whatever came over the line before, bytes lost to a full FIFO included: once it stays high and the
capture domain attends to the commands, everything comes to rest. Three `PING` frames sent with discipline
from any cycle then on leave the engine in the hunt and are answered at the end of all it says. -/
theorem recovers (hdiv : 4 ≤ div) (s₀ : Serial p div) (inp : ℕ → SerialIn) (t : ℕ)
    (hhigh : ∀ n, t ≤ n → lineIn inp n = true) (hatt : Attended s₀ inp) :
    ∃ W, t ≤ W ∧ ∀ T, W ≤ T → ∀ inp', (∀ n < T, inp n = inp' n) → Quiet s₀ inp' T ∧
      ∀ edge sent ρ N, Timed div edge sent (fun n => lineIn inp' (T + n)) →
        (∀ n, (history s₀ inp' n).Agrees ρ) → Disciplined s₀ inp' ρ T sent →
        Attended s₀ inp' → (∀ n, N ≤ n → collect sent n = ping ++ ping ++ ping) →
        ∃ m, T ≤ m ∧ (run s₀ inp' m).uDrain.st = .hunt ∧ collect (spoken s₀ inp') m =
          (answer p (laneBytes p) (parse ((history s₀ inp' T).received ++ (ping ++ ping))).1 ρ).sent ++
            pingReply p := by
  have hret : Returns s₀ inp := returns hdiv hatt
  obtain ⟨W, hW, hquiet⟩ := quiet_comes hdiv hhigh hret
  refine ⟨W, hW, fun T hT inp' hsame => ⟨(hquiet T hT).congr hsame, ?_⟩⟩
  exact fun edge sent ρ N hline hρ hd hatt' hall =>
    ((hquiet T hT).congr hsame).pinged hdiv hline hρ hd (returns hdiv hatt') hall

/-- A request cut off, and a host that starts over. -/
theorem cutRead_repaired : ∃ inp' m before,
    (∀ n < 960, inp' n = burstIn 16 160 Drain.cutRead n) ∧
    (run (blank Drain.widest 16) inp' m).uDrain.st = .hunt ∧
    collect (spoken (blank Drain.widest 16) inp') m = before ++ pingReply Drain.widest := by
  have hhigh : ∀ n, 960 ≤ n → lineIn (burstIn 16 160 Drain.cutRead) n = true := by
    intro n hn
    have hsix : 6 ≤ n / 160 := (Nat.le_div_iff_mul_le (by omega)).mpr hn
    rw [lineIn, burstIn, burstLine, List.getElem?_eq_none (by exact hsix)]
    rfl
  have hzero : ZeroSide (burstIn 16 160 Drain.cutRead) := fun _ => ⟨rfl, rfl, rfl⟩
  obtain ⟨W, hW, hrecovers⟩ := recovers (show 4 ≤ 16 by omega) (blank Drain.widest 16)
    (burstIn 16 160 Drain.cutRead) 960 hhigh hzero.attended
  obtain ⟨hquiet, -⟩ := hrecovers W le_rfl _ fun _ _ => rfl
  obtain ⟨inp', sent, N, hsame, hzero', htold⟩ :=
    hquiet.tells (by omega) (fun n hn => hhigh n (by omega)) hzero (ping ++ ping ++ ping)
  obtain ⟨m, -, hst, hsaid⟩ := (hrecovers W le_rfl inp' hsame).2 _ sent (fun _ => 0) N
    (htold.timed (by omega)) (zeros_agree fun n => (hzero' n).2.2) htold.disciplined hzero'.attended
    fun n hn => htold.whole (by omega) hn
  exact ⟨inp', m, _, fun n hn => (hsame n (by omega)).symm, hst, hsaid⟩

end Serial

end FpgaScope
