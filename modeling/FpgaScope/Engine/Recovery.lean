import FpgaScope.Engine.Conform
import FpgaScope.Protocol.Recovery

/-! Recovery of the frame engine. From any reachable state, three `PING` frames sent over a
transport that does not wait forever are accepted; the engine is in the hunt when the third
begins and answers it once. -/

namespace FpgaScope

open Protocol Host Clocked

namespace Protocol

/-- The answer to a `PING`. -/
def pingReply (p : Params) : List Byte := frameBytes scopeOpPing (be32 scopeIdReg ++ be32 p.idValue)

theorem respond_ping (p : Params) (pack : (ℕ → BitVec 32) → List Byte) (reply : ℕ → BitVec 32) :
    respond p pack reply pingRequest = { ops := [], sent := pingReply p } := by
  have hcrc : ¬ (crcOf (body scopeOpPing [])).toNat ≠ crc16Ccitt (body scopeOpPing []) 0xFFFF :=
    not_not.mpr (crc16Ccitt_eq _).symm
  unfold respond pingRequest
  simp only [hcrc, ↓reduceIte]
  rfl

end Protocol

namespace Drain

variable {p : Params}

/-- From cycle `n` on the host offers the bytes of `msg` one after the other, each again and
again until it is accepted. -/
structure Sends (d₀ : Drain p) (inp : ℕ → DrainIn) (n : ℕ) (msg : List Byte) : Prop where
  bytes : ∀ k j b, n ≤ k →
    (history d₀ inp k).received.length = (history d₀ inp n).received.length + j →
    msg[j]? = some b → (inp k).rxValid = true → (inp k).rxData = b
  offers : ∀ k, n ≤ k →
    (history d₀ inp k).received.length < (history d₀ inp n).received.length + msg.length →
    ∃ m, k ≤ m ∧ (inp m).rxValid = true

section
variable {d₀ : Drain p} {inp : ℕ → DrainIn} {n : ℕ} {msg : List Byte}

/-- Until a byte is offered a receiving engine stays as it is. -/
theorem waits_for_byte {k m : ℕ} (hk : k ≤ m) (hrx : (run d₀ inp k).rxReady = true)
    (hno : ∀ j, k ≤ j → j < m → (inp j).rxValid = false) :
    run d₀ inp m = run d₀ inp k ∧ (history d₀ inp m).received = (history d₀ inp k).received := by
  induction m, hk using Nat.le_induction with
  | base => exact ⟨rfl, rfl⟩
  | succ m hm ih =>
    obtain ⟨hd, hH⟩ := ih fun j h₁ h₂ => hno j h₁ (by omega)
    have hv := hno m hm (by omega)
    have hrx' : (run d₀ inp m).rxReady = true := by rw [hd, hrx]
    refine ⟨?_, ?_⟩
    · rw [run, trace_succ, ← run, step_silent hrx' hv, hd]
    · rw [history, History.after, accepted, hv, Bool.and_false, if_neg (by simp), Option.toList_none,
        List.append_nil, hH]

/-- What is sent is accepted, byte by byte. -/
theorem Sends.accepted (hs : Sends d₀ inp n msg) (hfair : Fair d₀ inp) {j : ℕ} (hj : j ≤ msg.length) :
    ∃ k, n ≤ k ∧ (run d₀ inp k).rxReady = true ∧
      (history d₀ inp k).received = (history d₀ inp n).received ++ msg.take j := by
  have hreceives : ∀ k, ∃ m, k ≤ m ∧ (run d₀ inp m).rxReady = true ∧
      (history d₀ inp m).received = (history d₀ inp k).received :=
    (execution d₀ inp).receives (fun _ => .start rfl) fun k _ => by
      obtain ⟨m, hm, hst⟩ := hfair.moves k
      exact ⟨m, hm, inp m, rfl, hst⟩
  induction j with
  | zero =>
    obtain ⟨k, hk, hrx, hrec⟩ := hreceives n
    exact ⟨k, hk, hrx, by rw [hrec, List.take_zero, List.append_nil]⟩
  | succ j ih =>
    obtain ⟨k, hk, hrx, hrec⟩ := ih (by omega)
    have hlen : (history d₀ inp k).received.length = (history d₀ inp n).received.length + j := by
      rw [hrec, List.length_append, List.length_take]
      omega
    -- the first offer from here on
    have hoffer := hs.offers k hk (by omega)
    obtain ⟨hkm, hv⟩ := Nat.find_spec hoffer
    have hfirst : ∀ i, k ≤ i → i < Nat.find hoffer → (inp i).rxValid = false := fun i hi hlt => by
      simpa [hi] using Nat.find_min hoffer hlt
    generalize Nat.find hoffer = m at hkm hv hfirst
    obtain ⟨hd, hH⟩ := waits_for_byte hkm hrx hfirst
    have hb := hs.bytes m j msg[j] (by omega) (by rw [hH, hlen]) (List.getElem?_eq_getElem _) hv
    obtain ⟨k', hk', hrx', hrec'⟩ := hreceives (m + 1)
    refine ⟨k', by omega, hrx', ?_⟩
    rw [hrec', history, History.after, Drain.accepted, hd, hrx, hv, Bool.and_self, if_pos rfl,
      Option.toList_some, hb, hH, hrec, List.append_assoc, List.take_concat_get']

end

/-- A ready engine with no request begun is in the hunt. -/
theorem Serves.hunts {ρ : ℕ → BitVec 32} {d : Drain p} {H : History} (h : Serves ρ d H)
    (hidle : Idle (parse H.received).2) (hrx : d.rxReady = true) : d.st = .hunt := by
  cases h with
  | receiving h =>
    cases h with
    | hunt hst => exact hst
    | sync1 _ _ hlast => exact absurd hlast hidle.2
    | synced hl => rw [hidle.1] at hl; cases hl
  | answering hx => rw [hrx] at hx; cases hx

/-- The engine recovers. In any run, from any cycle on, if the host sends three `PING` frames
and no side waits forever: the engine is in the hunt when it is ready for the third; the
third is answered by one `PING` response and no operation; and all of this comes to pass. -/
theorem parser_recovers (d₀ : Drain p) (inp : ℕ → DrainIn) (n : ℕ) (hfair : Fair d₀ inp)
    (hs : Sends d₀ inp n (ping ++ ping ++ ping)) :
    (∀ k, n ≤ k → (history d₀ inp k).received = (history d₀ inp n).received ++ (ping ++ ping) →
      (run d₀ inp k).rxReady = true → (run d₀ inp k).st = .hunt) ∧
    (∀ a k, n ≤ a → (history d₀ inp a).received = (history d₀ inp n).received ++ (ping ++ ping) →
      (run d₀ inp a).rxReady = true → a ≤ k →
      (history d₀ inp k).received = (history d₀ inp n).received ++ (ping ++ ping ++ ping) →
        (history d₀ inp k).operations = (history d₀ inp a).operations ∧
        (history d₀ inp k).emitted <+: (history d₀ inp a).emitted ++ pingReply p ∧
        ((run d₀ inp k).rxReady = true →
          (history d₀ inp k).emitted = (history d₀ inp a).emitted ++ pingReply p)) ∧
    ∃ a k, n ≤ a ∧ a ≤ k ∧
      (history d₀ inp a).received = (history d₀ inp n).received ++ (ping ++ ping) ∧
      (run d₀ inp a).rxReady = true ∧
      (history d₀ inp k).received = (history d₀ inp n).received ++ (ping ++ ping ++ ping) ∧
      (run d₀ inp k).rxReady = true := by
  have ex := execution d₀ inp
  obtain ⟨ρ, hρ⟩ := ex.exists_serves fun _ => .start rfl
  have hserves : ∀ m, Serves ρ (run d₀ inp m) (history d₀ inp m) := fun m => (hρ m).2
  have hidle := idle_pings (history d₀ inp n).received
  refine ⟨fun k _ hrec hrx => ?_, fun a k _ hreca hrxa hak hreck => ?_, ?_⟩
  · exact (hserves k).hunts (hrec ▸ hidle) hrx
  · have hparse : (parse (history d₀ inp k).received).1 =
        (parse (history d₀ inp a).received).1 ++ [pingRequest] := by
      rw [hreck, hreca, ← List.append_assoc, parse_append, parse_some (next_ping hidle.1),
        show parse [] = ([], []) from parse_none rfl]
    have hsnoc := answer_snoc p (laneBytes p) (parse (history d₀ inp a).received).1 pingRequest ρ
    simp only [respond_ping, List.append_nil] at hsnoc
    rw [← hparse] at hsnoc
    obtain ⟨hsent, hops⟩ := (hserves a).settled hrxa
    have hdue : (history d₀ inp k).due p ρ =
        { ops := (history d₀ inp a).operations, sent := (history d₀ inp a).emitted ++ pingReply p } := by
      rw [hsent, hops]
      exact hsnoc
    have hpre := Serves.operations_prefix (hserves k)
    have hemit := Serves.emitted_prefix (hserves k)
    rw [hdue] at hpre hemit
    refine ⟨((ex.operations_mono a k hak).eq_of_length_le hpre.length_le).symm, hemit, fun hrxk => ?_⟩
    rw [((hserves k).settled hrxk).1, hdue]
  · have hlen : ping.length = 7 := by rw [ping_eq]; rfl
    obtain ⟨a, ha, hrxa, hreca⟩ := hs.accepted hfair (j := 14) (by simp [hlen])
    obtain ⟨k, hk, hrxk, hreck⟩ := hs.accepted hfair le_rfl
    rw [List.take_append_of_le_length (by simp [hlen]), List.take_of_length_le (by simp [hlen])] at hreca
    rw [List.take_length] at hreck
    refine ⟨a, k, ha, ?_, hreca, hrxa, hreck, hrxk⟩
    by_contra hlt
    have hle := (ex.received_mono k a (by omega)).length_le
    rw [hreca, hreck] at hle
    simp only [List.length_append] at hle
    omega

/-! ### A host that waits for `rx_ready` -/

section
variable (d₀ : Drain p) (req : List Byte)

/-- Byte `k` of `req` is on offer; a response comes only for a command. -/
def patientIn (d : Drain p) (k : ℕ) : DrainIn where
  rxData := req.getD k 0
  rxValid := decide (k < req.length)
  txReady := true
  cmdReady := true
  rspData := 0
  rspValid := d.st == .csrWait

/-- The engine and the number of bytes it has accepted. -/
def patientRun : ℕ → Drain p × ℕ
  | 0 => (d₀.reset, 0)
  | n + 1 =>
    let s := patientRun n
    let i := patientIn req s.1 s.2
    (s.1.step i, s.2 + (s.1.accepted i).toList.length)

def patient (n : ℕ) : DrainIn := patientIn req (patientRun d₀ req n).1 (patientRun d₀ req n).2

theorem run_patient (n : ℕ) : run d₀ (patient d₀ req) n = (patientRun d₀ req n).1 ∧
    (history d₀ (patient d₀ req) n).received.length = (patientRun d₀ req n).2 := by
  induction n with
  | zero => exact ⟨rfl, rfl⟩
  | succ n ih =>
    obtain ⟨hrun, hlen⟩ := ih
    refine ⟨?_, ?_⟩
    · rw [run, trace_succ, ← run, hrun]
      rfl
    · rw [history, History.after, List.length_append, hlen, hrun]
      rfl

theorem patient_fair : Fair d₀ (patient d₀ req) where
  tx := fun n _ => ⟨n, le_rfl, rfl⟩
  cmd := fun n _ => ⟨n, le_rfl, rfl⟩
  rsp := fun n hst => by
    rw [(run_patient d₀ req n).1] at hst
    exact ⟨n, le_rfl, beq_iff_eq.mpr hst⟩

end

/-- Once the bytes `cut` are accepted the host sends the rest. -/
theorem patient_sends (d₀ : Drain p) (cut msg : List Byte) {n : ℕ}
    (h : (history d₀ (patient d₀ (cut ++ msg)) n).received.length = cut.length) :
    Sends d₀ (patient d₀ (cut ++ msg)) n msg where
  bytes k j b _ hlen hb _ := by
    have hk := (run_patient d₀ (cut ++ msg) k).2
    rw [hlen, h] at hk
    rw [patient, ← hk, patientIn, List.getD_append_right _ _ _ _ (by omega), Nat.add_sub_cancel_left,
      List.getD_eq_getElem?_getD, hb, Option.getD_some]
  offers k _ hlt := by
    refine ⟨k, le_rfl, ?_⟩
    rw [(run_patient d₀ (cut ++ msg) k).2, h] at hlt
    exact decide_eq_true (by rwa [List.length_append])

/-- A `READ_CSR` that announces eight payload bytes, cut off after one of them. -/
def cutRead : List Byte := [0xA5, 0x5C, 0x02, 0x00, 0x08, 0x00]

theorem cutRead_accepted : (history (blank widest)
    (patient (blank widest) (cutRead ++ (ping ++ ping ++ ping))) 6).received.length = cutRead.length := by
  rw [(run_patient _ _ _).2]
  decide +kernel

theorem cutRead_recovered : ∃ a k,
    (run (blank widest) (patient (blank widest) (cutRead ++ (ping ++ ping ++ ping))) a).st = .hunt ∧
    (history (blank widest) (patient (blank widest) (cutRead ++ (ping ++ ping ++ ping))) k).emitted =
      (history (blank widest) (patient (blank widest) (cutRead ++ (ping ++ ping ++ ping))) a).emitted ++
        pingReply widest := by
  obtain ⟨hhunt, hanswer, a, k, ha, hak, hreca, hrxa, hreck, hrxk⟩ :=
    parser_recovers (blank widest) _ 6 (patient_fair _ _) (patient_sends _ cutRead _ cutRead_accepted)
  exact ⟨a, k, hhunt a ha hreca hrxa, (hanswer a k ha hreca hrxa hak hreck).2.2 hrxk⟩

end Drain

end FpgaScope
