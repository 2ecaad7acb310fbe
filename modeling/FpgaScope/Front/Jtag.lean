import FpgaScope.Lib.Queue
import FpgaScope.Rtl.Jtag

/-! The bridge is transparent to a host that polls. A `STATUS` read that has shown
`can_write` is still right when the byte is written, because nothing but a write fills the
buffer; so the buffer is a queue that is never pushed when full. Towards the host there is
no buffer: what a read of `RXDATA` returns is the handshake itself. -/

namespace FpgaScope.Jtag

open Clocked

/-- A run of the bridge from reset. -/
def run (inp : ℕ → JtagIn) : ℕ → Jtag := trace step reset inp

/-! ### What is handed over -/

section
variable (inp : ℕ → JtagIn) (n : ℕ)

/-- The byte the host writes to `TXDATA`. -/
def written : Option Byte := if (inp n).wrTx then some ((inp n).avalon.writedata.setWidth 8) else none

/-- The byte the scope takes. -/
def handed : Option Byte :=
  if (run inp n).rxValid && (inp n).rxReady then some (run inp n).rxData else none

/-- The byte a read of `RXDATA` returns with bit 8. -/
def returned : Option Byte :=
  if (inp n).rdRx && ((run inp n).readdata (inp n)).getLsbD 8 then
    some (((run inp n).readdata (inp n)).setWidth 8)
  else none

/-- The byte of the scope's stream that is taken. -/
def emitted : Option Byte :=
  if (inp n).txValid && (inp n).txReady then some (inp n).txData else none

/-- The byte the scope still holds on `tx_data` after the cycle before. -/
def waiting : ℕ → Option Byte
  | 0 => none
  | n + 1 => if (inp n).txValid && !(inp n).txReady then some (inp n).txData else none

/-- A byte the scope puts on `tx_data`, in its first cycle there. -/
def offered : Option Byte :=
  if (inp n).txValid && (waiting inp n).isNone then some (inp n).txData else none

end

/-! ### The two sides -/

/-- The host writes `TXDATA` only after a read of `STATUS` has shown `can_write` since its
write before. -/
def Polls (inp : ℕ → JtagIn) : Prop :=
  ∀ n, (inp n).wrTx = true → ∃ m < n, (inp m).rdStatus = true ∧
    ((run inp m).readdata (inp m)).getLsbD 1 = true ∧ ∀ v, m ≤ v → v < n → (inp v).wrTx = false

/-- The scope holds `tx_valid` and `tx_data` until the byte is taken. -/
def Stable (inp : ℕ → JtagIn) : Prop :=
  ∀ n, (inp n).txValid = true → (inp n).txReady = false →
    (inp (n + 1)).txValid = true ∧ (inp (n + 1)).txData = (inp n).txData

/-! ### The registers -/

theorem readdata_rxdata (b : Jtag) {i : JtagIn} (h : i.rdRx = true) :
    (b.readdata i).getLsbD 8 = i.txValid ∧ (b.readdata i).setWidth 8 = i.txData := by
  simp only [JtagIn.rdRx, Bool.and_eq_true] at h
  rw [readdata, if_pos h.2]
  refine ⟨?_, ?_⟩
  · rw [BitVec.getLsbD_append, BitVec.getLsbD_append]
    simp
  · apply BitVec.eq_of_getLsbD_eq
    intro k hk
    rw [BitVec.getLsbD_setWidth, BitVec.getLsbD_append]
    simp [hk]

theorem readdata_status (b : Jtag) {i : JtagIn} (h : i.rdStatus = true) :
    (b.readdata i).getLsbD 1 = !b.txbValid := by
  simp only [JtagIn.rdStatus, Bool.and_eq_true, beq_iff_eq] at h
  rw [readdata, h.2, if_neg (by decide), if_pos (by decide), BitVec.getLsbD_append, BitVec.getLsbD_append]
  simp

/-! ### The buffer as a queue -/

/-- The byte in the buffer. -/
def held (b : Jtag) : List Byte := if b.txbValid then [b.txbData] else []

variable {inp : ℕ → JtagIn}

/-- Without a write the buffer does not fill. -/
theorem stays_empty {m n : ℕ} (hm : (run inp m).txbValid = false) (hle : m ≤ n)
    (hno : ∀ v, m ≤ v → v < n → (inp v).wrTx = false) : (run inp n).txbValid = false := by
  induction n, hle using Nat.le_induction with
  | base => exact hm
  | succ n hn ih =>
    have hprev := ih fun v h₁ h₂ => hno v h₁ (by omega)
    change (if (inp n).wrTx && !(run inp n).txbValid then true
      else if (inp n).rxReady && (run inp n).txbValid then false else (run inp n).txbValid) = false
    rw [hno n hn (Nat.lt_succ_self n), hprev]
    simp

/-- What a poll has shown is still so when the byte is written. -/
theorem empty_at_write (hpoll : Polls inp) {n : ℕ} (hw : (inp n).wrTx = true) :
    (run inp n).txbValid = false := by
  obtain ⟨m, hm, hread, hcan, hno⟩ := hpoll n hw
  rw [readdata_status _ hread, Bool.not_eq_true'] at hcan
  exact stays_empty hcan hm.le hno

theorem held_step (b : Jtag) (i : JtagIn) (h : i.wrTx = true → b.txbValid = false) :
    (b.step i).held = Queue.next b.held (if i.wrTx then some (i.avalon.writedata.setWidth 8) else none)
      (b.rxValid && i.rxReady) := by
  unfold held step rxValid Queue.next
  cases hv : b.txbValid with
  | false => cases i.wrTx <;> simp
  | true =>
    have hw : i.wrTx = false := by
      by_contra hne
      have := h (by simpa using hne)
      rw [hv] at this
      cases this
    cases i.rxReady <;> simp [hw]

/-- Every byte written is handed over, or is the one in the buffer. -/
theorem written_conserved (hpoll : Polls inp) (n : ℕ) :
    collect (handed inp) n ++ (run inp n).held = collect (written inp) n := by
  have hcons := Queue.conserved_of_step (fun k => (run inp k).held) (written inp)
    (fun k => (run inp k).rxValid && (inp k).rxReady) rfl
    (fun k => held_step _ _ fun hw => empty_at_write hpoll hw)
    (fun k hk => by
      rw [rxValid, Bool.and_eq_true] at hk
      rw [held, hk.1]
      simp) n
  rw [← hcons]
  congr 2
  funext k
  rw [handed, Queue.taken, held, rxValid, rxData]
  cases (run inp k).txbValid <;> rfl

/-- A scope that keeps taking gets every byte. -/
theorem written_arrives (hpoll : Polls inp) (h : Recurs fun n => (inp n).rxReady = true) (n : ℕ) :
    ∃ m, n ≤ m ∧ collect (written inp) n <+: collect (handed inp) m := by
  obtain ⟨m, hm, hready⟩ := h n
  cases hv : (run inp m).txbValid with
  | false =>
    refine ⟨m, hm, (collect_mono _ hm).trans ?_⟩
    rw [← written_conserved hpoll m, held, hv, if_neg (by decide), List.append_nil]
  | true =>
    refine ⟨m + 1, by omega, (collect_mono _ (show n ≤ m + 1 by omega)).trans ?_⟩
    have hno : (inp m).wrTx = false := by
      by_contra hne
      have := empty_at_write hpoll (n := m) (by simpa using hne)
      rw [hv] at this
      cases this
    have hempty : (run inp (m + 1)).txbValid = false := by
      change (if (inp m).wrTx && !(run inp m).txbValid then true
        else if (inp m).rxReady && (run inp m).txbValid then false else (run inp m).txbValid) = false
      rw [hno, hready, hv]
      rfl
    rw [← written_conserved hpoll (m + 1), held, hempty, if_neg (by decide), List.append_nil]

/-! ### The other way -/

/-- What a read returns with bit 8 is what the scope sees taken. -/
theorem returned_eq (inp : ℕ → JtagIn) : returned inp = emitted inp := by
  funext n
  rw [returned, emitted, JtagIn.txReady]
  cases hr : (inp n).rdRx with
  | false => simp
  | true =>
    obtain ⟨havail, hbyte⟩ := readdata_rxdata (run inp n) hr
    rw [havail, hbyte]
    cases (inp n).txValid <;> rfl

/-- Every byte the scope offers is returned, or is the one on `tx_data`. -/
theorem offered_conserved (hstable : Stable inp) (n : ℕ) :
    collect (returned inp) n ++ (waiting inp n).toList = collect (offered inp) n := by
  rw [returned_eq]
  induction n with
  | zero => rfl
  | succ n ih =>
    rw [collect_succ, collect_succ, ← ih, List.append_assoc, List.append_assoc]
    congr 1
    have hwait : ∀ x, waiting inp n = some x → (inp n).txValid = true ∧ (inp n).txData = x := by
      intro x hx
      cases n with
      | zero => cases hx
      | succ n =>
        rw [waiting] at hx
        split at hx
        · rename_i h
          rw [Bool.and_eq_true, Bool.not_eq_true'] at h
          obtain ⟨hv, hd⟩ := hstable n h.1 h.2
          exact ⟨hv, hd.trans (Option.some.inj hx)⟩
        · cases hx
    rw [emitted, waiting, offered]
    cases hw : waiting inp n with
    | none => cases (inp n).txValid <;> cases (inp n).txReady <;> rfl
    | some x =>
      obtain ⟨hv, rfl⟩ := hwait x hw
      rw [hv]
      cases (inp n).txReady <;> rfl

/-- A host that keeps reading gets every byte. -/
theorem offered_arrives (hstable : Stable inp) (h : Recurs fun n => (inp n).rdRx = true) (n : ℕ) :
    ∃ m, n ≤ m ∧ collect (offered inp) n <+: collect (returned inp) m := by
  obtain ⟨m, hm, hread⟩ := h n
  have hempty : waiting inp (m + 1) = none := by
    rw [waiting, JtagIn.txReady, hread, Bool.true_and, Bool.and_not_self, if_neg (by decide)]
  refine ⟨m + 1, by omega, (collect_mono _ (show n ≤ m + 1 by omega)).trans ?_⟩
  rw [← offered_conserved hstable (m + 1), hempty, Option.toList_none, List.append_nil]

/-- The bridge is transparent. In every run with a host that polls before it writes: the bytes
the scope takes are the bytes written, up to the one in the buffer; the bytes read with bit 8
set are the bytes the scope hands over, and from a scope that holds its bytes they are all it
offers, up to the one on the wires; and a side that keeps taking misses none. -/
theorem bridge_transparent (inp : ℕ → JtagIn) (hpoll : Polls inp) (n : ℕ) :
    collect (handed inp) n ++ (run inp n).held = collect (written inp) n ∧
    ((Recurs fun k => (inp k).rxReady = true) →
      ∃ m, n ≤ m ∧ collect (written inp) n <+: collect (handed inp) m) ∧
    collect (returned inp) n = collect (emitted inp) n ∧
    (Stable inp → collect (returned inp) n ++ (waiting inp n).toList = collect (offered inp) n ∧
      ((Recurs fun k => (inp k).rdRx = true) →
        ∃ m, n ≤ m ∧ collect (offered inp) n <+: collect (returned inp) m)) :=
  ⟨written_conserved hpoll n, fun h => written_arrives hpoll h n, by rw [returned_eq],
    fun hstable => ⟨offered_conserved hstable n, fun h => offered_arrives hstable h n⟩⟩

/-- Two polls and two writes, then a read; the scope takes what it is given and holds one
byte until it is read. -/
def pollsIn (n : ℕ) : JtagIn where
  avalon :=
    { address := if n = 0 ∨ n = 3 then regStatus else if n = 1 ∨ n = 4 then regTxdata else regRxdata
      read := n = 0 ∨ n = 3 ∨ n = 5
      write := n = 1 ∨ n = 4
      writedata := if n = 1 then 0xA5 else 0x5C }
  rxReady := true
  txData := 0x11
  txValid := n ≤ 5

theorem pollsIn_polls : Polls pollsIn := by
  intro n hw
  have hn : n = 1 ∨ n = 4 := by
    simp only [JtagIn.wrTx, pollsIn, Bool.and_eq_true, decide_eq_true_iff] at hw
    exact hw.1
  rcases hn with rfl | rfl
  · refine ⟨0, by decide, by decide, by decide, fun v _ h₂ => ?_⟩
    obtain rfl : v = 0 := by omega
    decide
  · refine ⟨3, by decide, by decide, by decide, fun v h₁ h₂ => ?_⟩
    obtain rfl : v = 3 := by omega
    decide

theorem pollsIn_stable : Stable pollsIn := by
  intro n hv hr
  have hle : n ≤ 5 := of_decide_eq_true hv
  have hne : n ≠ 5 := by
    rintro rfl
    cases hr
  exact ⟨decide_eq_true (show n + 1 ≤ 5 by omega), rfl⟩

/-- Both bytes arrive, and the third comes back. -/
theorem pollsIn_transparent :
    collect (handed pollsIn) 7 = [0xA5, 0x5C] ∧ collect (returned pollsIn) 7 = [0x11] := by
  obtain ⟨hwritten, -, -, hscope⟩ := bridge_transparent pollsIn pollsIn_polls 7
  have hoffered := (hscope pollsIn_stable).1
  rw [show (run pollsIn 7).held = [] by decide, List.append_nil] at hwritten
  rw [show waiting pollsIn 7 = none by decide, Option.toList_none, List.append_nil] at hoffered
  exact ⟨hwritten.trans (by decide), hoffered.trans (by decide)⟩

end FpgaScope.Jtag
