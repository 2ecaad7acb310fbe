import FpgaScope.Capture.Run
import FpgaScope.Host.Console
import FpgaScope.Rtl.Board

/-! The scope behind its address window. What the capture domain sees of the accesses of the
master is all that the later modules use of the board. -/

namespace FpgaScope

open Clocked

/-- Accesses by byte address. -/
abbrev ByteAccess := Access (BitVec 32) (BitVec 32)

/-- The register word of a byte address. -/
def regWord (address : BitVec 32) : BitVec 8 := address.extractLsb' 2 8

/-- A capture domain that a master reaches through the window. -/
structure OnWindow {p : Params} (c₀ : Capture p) (inp : ℕ → CaptureIn p)
    (b : BusSignals (BitVec 32) (BitVec 32)) : Prop where
  quiet : ∀ n, b.issued n = none → (inp n).bus.write = false ∧ (inp n).bus.read = false
  write : ∀ n a d, b.issued n = some (.write a d) → (inp n).bus =
    { addr := regWord a, wdata := d, write := selScope a, read := false }
  read : ∀ n a, b.issued n = some (.read a) → ∃ d, (inp n).bus =
    { addr := regWord a, wdata := d, write := false, read := selScope a }
  data : ∀ n a, b.issued n = some (.read a) → ∃ d, b.data (n + 1) = some d ∧
    (selScope a = true → d = (Capture.run c₀ inp n).csrRdata (inp n))
  /-- The RAM behind `BUF_DATA` is given the cycle it needs after a write to `BUF_CTRL`. -/
  gap : ∀ n d, b.issued n = some (.write Console.sBufCtrl d) → b.issued (n + 1) = none
  ext : ∀ n, (inp n).trigExtI = false

namespace OnWindow

variable {p : Params} {c₀ : Capture p} {inp : ℕ → CaptureIn p} {b : BusSignals (BitVec 32) (BitVec 32)}

/-- A read is answered in the next cycle. -/
theorem answer (w : OnWindow c₀ inp b) {u v : ℕ} {a d : BitVec 32} (hx : b.issued u = some (.read a))
    (h : Responds b u v d) : v = u + 1 ∧ (selScope a = true → d = (Capture.run c₀ inp u).csrRdata (inp u)) := by
  obtain ⟨d', hd', hvalue⟩ := w.data u a hx
  have hlt := h.lt
  have hv : v = u + 1 := by
    by_contra hne
    rw [h.pending (u + 1) (Nat.lt_succ_self u) (by omega)] at hd'
    cases hd'
  subst hv
  rw [h.data] at hd'
  exact ⟨rfl, Option.some.inj hd' ▸ hvalue⟩

/-- The window left alone from cycle `t` on. -/
def cutIn (inp : ℕ → CaptureIn p) (t n : ℕ) : CaptureIn p :=
  if n < t then inp n else { inp n with bus := { (inp n).bus with write := false, read := false } }

theorem run_cutIn {t n : ℕ} (hn : n ≤ t) : Capture.run c₀ (cutIn inp t) n = Capture.run c₀ inp n :=
  trace_congr _ _ fun _ hk => if_pos (hk.trans_le hn)

theorem cut (w : OnWindow c₀ inp b) (t : ℕ) : OnWindow c₀ (cutIn inp t) (b.cut t) := by
  have hbefore : ∀ {n x}, (b.cut t).issued n = some x → n < t ∧ b.issued n = some x := fun {n x} hx => by
    change (if n < t then b.issued n else none) = some x at hx
    split at hx
    · exact ⟨by assumption, hx⟩
    · cases hx
  refine ⟨fun n hx => ?_, fun n a d hx => ?_, fun n a hx => ?_, fun n a hx => ?_, fun n d hx => ?_, fun n => ?_⟩
  · unfold cutIn
    split
    · rename_i hn
      exact w.quiet n ((if_pos hn).symm.trans hx)
    · exact ⟨rfl, rfl⟩
  · obtain ⟨hn, hx⟩ := hbefore hx
    rw [cutIn, if_pos hn]
    exact w.write n a d hx
  · obtain ⟨hn, hx⟩ := hbefore hx
    rw [cutIn, if_pos hn]
    exact w.read n a hx
  · obtain ⟨hn, hx⟩ := hbefore hx
    rw [run_cutIn hn.le, cutIn, if_pos hn]
    exact w.data n a hx
  · change (if n + 1 < t then b.issued (n + 1) else none) = none
    rw [w.gap n d (hbefore hx).2, ite_self]
  · unfold cutIn
    split <;> exact w.ext n

end OnWindow

/-! ### The lines of the master -/

namespace BoardIn

variable {p : Params} {i : BoardIn p} {a d : BitVec 32}

theorem accepted_idle (hread : i.mRead = false) (hwrite : i.mWrite = false) : i.accepted = none := by
  rw [accepted, hread, hwrite, if_neg Bool.false_ne_true, if_neg Bool.false_ne_true, ite_self]

theorem accepted_none (h : i.accepted = none) : i.muxWaitrequest = true ∨ i.mRead = false ∧ i.mWrite = false := by
  rw [accepted] at h
  cases hwait : i.muxWaitrequest with
  | true => exact Or.inl rfl
  | false =>
    cases hread : i.mRead with
    | true => simp [hwait, hread] at h
    | false =>
      cases hwrite : i.mWrite with
      | true => simp [hwait, hread, hwrite] at h
      | false => exact Or.inr ⟨rfl, rfl⟩

theorem accepted_read (h : i.accepted = some (.read a)) :
    i.muxWaitrequest = false ∧ i.mRead = true ∧ i.mAddress = a := by
  rw [accepted] at h
  cases hwait : i.muxWaitrequest with
  | true => simp [hwait] at h
  | false =>
    cases hread : i.mRead with
    | true => exact ⟨rfl, rfl, by simpa [hwait, hread] using h⟩
    | false => cases hwrite : i.mWrite <;> simp [hwait, hread, hwrite] at h

theorem accepted_write (h : i.accepted = some (.write a d)) :
    i.mRead = false ∧ i.mWrite = true ∧ i.mAddress = a ∧ i.mWritedata = d := by
  rw [accepted] at h
  cases hwait : i.muxWaitrequest with
  | true => simp [hwait] at h
  | false =>
    cases hread : i.mRead with
    | true => simp [hwait, hread] at h
    | false =>
      cases hwrite : i.mWrite with
      | true => exact ⟨rfl, rfl, by simpa [hwait, hread, hwrite] using h⟩
      | false => simp [hwait, hread, hwrite] at h

/-- Where the master has to wait, it does not address this scope. -/
theorem selScope_of_wait (h : i.muxWaitrequest = true) : selScope i.mAddress = false := by
  rw [muxWaitrequest] at h
  split at h
  · cases h
  · rename_i hsel
    exact (Bool.or_eq_false_iff.mp (Bool.eq_false_iff.mpr hsel)).2

end BoardIn

namespace Board

variable {p : Params} (b₀ : Board p) (inp : ℕ → BoardIn p)

def run : ℕ → Board p := trace step b₀ inp

/-- What the capture domain is fed. -/
def captureInp (n : ℕ) : CaptureIn p := (run b₀ inp n).captureIn (inp n)

def signals : BusSignals (BitVec 32) (BitVec 32) where
  issued n := (inp n).accepted
  data n := (run b₀ inp n).mReaddata

/-- Behind the window the capture domain runs as one of its own. -/
theorem capture_run (c₀ : Capture p) (probe : BitVec p.probeW) (n : ℕ) :
    (run (start c₀ probe) inp n).capture = Capture.run c₀ (captureInp (start c₀ probe) inp) n :=
  trace_component step Capture.step (start c₀ probe) inp capture captureIn (fun _ _ => rfl) n

/-- What the master keeps to: Avalon-MM does not let it read and write in one cycle, and the register
map asks for a cycle between a write to `BUF_CTRL` and the first read. -/
structure Orderly (inp : ℕ → BoardIn p) : Prop where
  single : ∀ n, (inp n).mRead = true → (inp n).mWrite = false
  gap : ∀ n d, (inp n).accepted = some (.write Console.sBufCtrl d) → (inp (n + 1)).accepted = none

variable {inp}

/-- The window of `u_scope`. -/
theorem onWindow (h : Orderly inp) (c₀ : Capture p) (probe : BitVec p.probeW) :
    OnWindow c₀ (captureInp (start c₀ probe) inp) (signals (start c₀ probe) inp) where
  quiet n hx := by
    change ((inp n).mWrite && selScope (inp n).mAddress) = false ∧ ((inp n).mRead && selScope (inp n).mAddress) = false
    rcases BoardIn.accepted_none hx with hwait | ⟨hread, hwrite⟩
    · rw [BoardIn.selScope_of_wait hwait, Bool.and_false, Bool.and_false]
      exact ⟨rfl, rfl⟩
    · rw [hread, hwrite]
      exact ⟨rfl, rfl⟩
  write n a d hx := by
    obtain ⟨hread, hwrite, rfl, rfl⟩ := BoardIn.accepted_write hx
    change (inp n).scopeBus = _
    rw [BoardIn.scopeBus, hread, hwrite, Bool.true_and, Bool.false_and]
    rfl
  read n a hx := by
    obtain ⟨-, hread, rfl⟩ := BoardIn.accepted_read hx
    refine ⟨(inp n).mWritedata, ?_⟩
    change (inp n).scopeBus = _
    rw [BoardIn.scopeBus, hread, h.single n hread, Bool.true_and, Bool.false_and]
    rfl
  data n a hx := by
    obtain ⟨hwait, hread, rfl⟩ := BoardIn.accepted_read hx
    refine ⟨(run (start c₀ probe) inp n).muxReaddata (inp n), ?_, fun hsel => ?_⟩
    · change (if (inp n).mRead && !(inp n).muxWaitrequest then _ else none) = _
      rw [hread, hwait]
      rfl
    · rw [muxReaddata, if_pos hsel, capture_run]
      rfl
  gap := h.gap
  ext _ := rfl

end Board

end FpgaScope
