import FpgaScope.Lib.Queue
import FpgaScope.Lib.Ring
import FpgaScope.Rtl.FifoSync

/-! `prim_fifo_sync` against an ideal queue of at most `2 ^ DEPTH_LOG2` words. The oldest
word is in the output stage or on its way there, the others lie in the RAM from the read
address to the write address. -/

namespace FpgaScope.FifoSync

open Clocked

variable {w a : ℕ}

/-- Counters up to the capacity do not wrap. -/
theorem count_inj {n k : ℕ} (hn : n ≤ 2 ^ a) (hk : k ≤ 2 ^ a) :
    BitVec.ofNat (a + 1) n = BitVec.ofNat (a + 1) k ↔ n = k := by
  have hpos := Nat.two_pow_pos a
  refine ⟨fun he => ?_, fun he => by rw [he]⟩
  have := congrArg BitVec.toNat he
  rwa [BitVec.toNat_ofNat, BitVec.toNat_ofNat, Nat.mod_eq_of_lt (by omega),
    Nat.mod_eq_of_lt (by omega)] at this

/-- Addresses less than a full turn apart are different. -/
theorem ofNat_ne {n k : ℕ} (hlt : n < k) (hturn : k < n + 2 ^ a) : BitVec.ofNat a n ≠ BitVec.ofNat a k := by
  intro he
  have hmod : n % 2 ^ a = k % 2 ^ a := by simpa using congrArg BitVec.toNat he
  exact Ring.mod_ne_of_lt_add hlt hturn hmod

/-- A counter that goes up and down by at most one. -/
theorem count_step {n n' : ℕ} (up down : Bool) (h : n' + down.toNat = n + up.toNat) :
    BitVec.ofNat (a + 1) n + (BitVec.ofBool up).setWidth (a + 1) -
      (BitVec.ofBool down).setWidth (a + 1) = BitVec.ofNat (a + 1) n' := by
  rw [Ring.setWidth_ofBool, Ring.setWidth_ofBool, ← BitVec.ofNat_add, ← h, BitVec.ofNat_add, add_sub_cancel_right]

/-- The FIFO holds the words `q`, of which the RAM has `m` from address `r` on. -/
structure Holds (f : FifoSync w a) (q : List (BitVec w)) (r m : ℕ) : Prop where
  split : q.length = f.outVld.toNat + m
  fits : q.length ≤ 2 ^ a
  cnt : f.cnt = BitVec.ofNat (a + 1) q.length
  ramCnt : f.ramCnt = BitVec.ofNat (a + 1) m
  raddr : f.raddr = BitVec.ofNat a r
  waddr : f.waddr = BitVec.ofNat a (r + m)
  stored : ∀ k < m, q[f.outVld.toNat + k]? = some (f.ram.mem (BitVec.ofNat a (r + k)))
  front : f.outVld = true → q[0]? = some f.rdData

theorem Holds.reset (f : FifoSync w a) : Holds f.reset [] 0 0 where
  split := rfl
  fits := Nat.zero_le _
  cnt := rfl
  ramCnt := rfl
  raddr := rfl
  waddr := rfl
  stored := fun k hk => absurd hk (Nat.not_lt_zero k)
  front := nofun

namespace Holds

variable {f : FifoSync w a} {q : List (BitVec w)} {r m : ℕ} (h : Holds f q r m) (i : FifoSyncIn w)
include h

theorem wrReady_iff : f.wrReady = false ↔ q.length = 2 ^ a := by
  rw [wrReady, bne_eq_false_iff_eq, h.cnt, Nat.one_shiftLeft, count_inj h.fits le_rfl]

theorem rdIssue_iff : f.rdIssue i = true ↔ 0 < m ∧ (f.outVld = false ∨ f.pop i = true) := by
  have hm : m ≤ 2 ^ a := by
    have := h.split
    have := h.fits
    omega
  have hzero : f.ramCnt = 0 ↔ m = 0 := by
    rw [h.ramCnt]
    exact count_inj hm (Nat.zero_le _)
  rw [rdIssue, Bool.and_eq_true, Bool.or_eq_true, bne_iff_ne, ne_eq, hzero, Bool.not_eq_true',
    Nat.pos_iff_ne_zero]

theorem nonempty (hv : f.rdValid = true) : q ≠ [] := by
  rintro rfl
  have := h.front hv
  cases this

/-- A word is only written while the RAM has a slot to spare. -/
theorem push_room (hp : f.push i = true) : q.length < 2 ^ a := by
  rw [push, Bool.and_eq_true] at hp
  have hne : q.length ≠ 2 ^ a := fun he => by
    rw [h.wrReady_iff.mpr he] at hp
    cases hp.2
  exact lt_of_le_of_ne h.fits hne

/-- The RAM is not read where it is written. -/
theorem ports_apart (hi : f.rdIssue i = true) (hp : f.push i = true) : f.raddr ≠ f.waddr := by
  obtain ⟨hpos, -⟩ := (h.rdIssue_iff i).mp hi
  have hroom := h.push_room i hp
  have hsplit := h.split
  rw [h.raddr, h.waddr]
  exact ofNat_ne (by omega) (by omega)

theorem outVld_step : (f.step i).outVld.toNat + (f.pop i).toNat = f.outVld.toNat + (f.rdIssue i).toNat := by
  have hissue := (h.rdIssue_iff i).mp
  have hpop : f.pop i = true → f.outVld = true := fun hp => (Bool.and_eq_true_iff.mp hp).1
  rw [step]
  cases hi : f.rdIssue i with
  | true =>
    rcases (hissue hi).2 with ho | hp
    · have hno : f.pop i = false := by rw [pop, rdValid, ho, Bool.false_and]
      simp [ho, hno]
    · simp [hp, hpop hp]
  | false =>
    cases hp : f.pop i with
    | true => simp [hpop hp]
    | false => simp

/-- The live words of the RAM stay. -/
theorem mem_kept {k : ℕ} (hk : k < m) :
    (f.step i).ram.mem (BitVec.ofNat a (r + k)) = f.ram.mem (BitVec.ofNat a (r + k)) := by
  rw [FifoSync.step, Ram.step]
  cases hp : f.push i with
  | false => rfl
  | true =>
    have hroom := h.push_room i hp
    have hsplit := h.split
    refine Function.update_of_ne ?_ _ _
    rw [h.waddr]
    exact ofNat_ne (by omega) (by omega)

/-- One clock edge is one cycle of the queue. -/
theorem step : Holds (f.step i) (Queue.next q (f.pushedWord i) (f.pop i)) (r + (f.rdIssue i).toNat)
    (m + (f.push i).toNat - (f.rdIssue i).toNat) := by
  have hsplit := h.split
  have hissue : f.rdIssue i = true → 0 < m := fun hi => ((h.rdIssue_iff i).mp hi).1
  have hroom := h.push_room i
  have hout := h.outVld_step i
  have htake : f.pop i = true → q ≠ [] := fun hp => h.nonempty (Bool.and_eq_true_iff.mp hp).1
  have hput : (f.pushedWord i).toList.length = (f.push i).toNat := by
    rw [pushedWord]
    cases f.push i <;> rfl
  have hlen := Queue.next_length (f.pushedWord i) htake
  rw [hput] at hlen
  have hle : (f.rdIssue i).toNat ≤ m := by
    cases hi : f.rdIssue i with
    | false => exact Nat.zero_le _
    | true => exact hissue hi
  refine ⟨?_, ?_, ?_, ?_, ?_, ?_, fun k hk => ?_, fun hv => ?_⟩
  · omega
  · cases hp : f.push i with
    | false => rw [hp, Bool.toNat_false] at hlen; have := h.fits; omega
    | true => rw [hp, Bool.toNat_true] at hlen; have := hroom hp; omega
  · rw [FifoSync.step, h.cnt]
    exact count_step _ _ hlen
  · rw [FifoSync.step, h.ramCnt]
    exact count_step _ _ (by omega)
  · rw [FifoSync.step, h.raddr]
    cases f.rdIssue i with
    | false => rfl
    | true => exact (BitVec.ofNat_add r 1).symm
  · rw [show r + (f.rdIssue i).toNat + (m + (f.push i).toNat - (f.rdIssue i).toNat) =
      r + m + (f.push i).toNat by omega, FifoSync.step, h.waddr]
    cases f.push i with
    | false => rfl
    | true => exact (BitVec.ofNat_add (r + m) 1).symm
  · have haddr : r + (f.rdIssue i).toNat + k = r + ((f.rdIssue i).toNat + k) := by omega
    rw [haddr]
    rcases Nat.lt_or_ge ((f.rdIssue i).toNat + k) m with hold | hnew
    · rw [Queue.next_getElem _ _ _ (by omega),
        show (f.pop i).toNat + ((f.step i).outVld.toNat + k) =
          f.outVld.toNat + ((f.rdIssue i).toNat + k) by omega, h.stored _ hold, h.mem_kept i hold]
    · -- the word put in this cycle
      have hp : f.push i = true := by
        cases hp : f.push i with
        | true => rfl
        | false => rw [hp, Bool.toNat_false] at hk; omega
      rw [hp, Bool.toNat_true] at hk hlen
      have hplace : (q.drop (f.pop i).toNat).length = (f.step i).outVld.toNat + k := by
        rw [List.length_drop]
        omega
      have hmem : (f.step i).ram.mem f.waddr = i.wrData := by
        rw [FifoSync.step, hp]
        exact Function.update_self _ _ _
      rw [show (f.rdIssue i).toNat + k = m by omega, ← h.waddr, hmem, ← hplace, Queue.next, pushedWord,
        hp, if_pos rfl, Option.toList_some, List.getElem?_concat_length]
  · have hdata : (f.step i).rdData = if f.rdIssue i then f.ram.mem f.raddr else f.rdData := rfl
    rw [hv, Bool.toNat_true] at hout
    rw [hdata]
    cases hi : f.rdIssue i with
    | true =>
      have hm := hissue hi
      rw [hi, Bool.toNat_true] at hout
      rw [Queue.next_getElem _ _ _ (by omega), if_pos rfl, show (f.pop i).toNat + 0 = f.outVld.toNat + 0 by omega,
        h.stored 0 hm, h.raddr, Nat.add_zero]
    | false =>
      rw [hi, Bool.toNat_false] at hout
      have hone := Bool.toNat_le f.outVld
      have hvalid : f.outVld = true := by
        cases ho : f.outVld with
        | true => rfl
        | false => rw [ho, Bool.toNat_false] at hout; omega
      rw [Queue.next_getElem _ _ _ (by rw [hvalid, Bool.toNat_true] at hsplit hout; omega),
        show (f.pop i).toNat + 0 = 0 by omega, h.front hvalid, if_neg Bool.false_ne_true]

/-- A word put into the empty FIFO is at the output two cycles later. -/
theorem fills (hq : q = []) (hp : f.push i = true) (i' : FifoSyncIn w) :
    ((f.step i).step i').rdValid = true := by
  have hsplit := h.split
  have hstep := h.step i
  rw [hq, List.length_nil] at hsplit
  have hno : f.rdIssue i = false := by
    cases hi : f.rdIssue i with
    | false => rfl
    | true =>
      have := ((h.rdIssue_iff i).mp hi).1
      omega
  rw [hno, hp, Bool.toNat_false, Bool.toNat_true] at hstep
  have hout : (f.step i).outVld = false := by
    have hlen := hstep.split
    have hput : (f.pushedWord i).toList.length ≤ 1 := by cases f.pushedWord i <;> simp
    rw [Queue.next, hq, List.drop_nil, List.nil_append] at hlen
    cases ho : (f.step i).outVld with
    | false => rfl
    | true => rw [ho, Bool.toNat_true] at hlen; omega
  have hissue : (f.step i).rdIssue i' = true := (hstep.rdIssue_iff i').mpr ⟨by omega, Or.inl hout⟩
  change (if (f.step i).rdIssue i' then true else _) = true
  rw [hissue, if_pos rfl]

end Holds

/-- A word that is offered and not taken stays. -/
theorem offered_stays (f : FifoSync w a) (i : FifoSyncIn w) (hv : f.rdValid = true)
    (hr : i.rdReady = false) : (f.step i).rdValid = true ∧ (f.step i).rdData = f.rdData := by
  have hpop : f.pop i = false := by rw [pop, hr, Bool.and_false]
  have hout : f.outVld = true := hv
  have hissue : f.rdIssue i = false := by rw [rdIssue, hpop, hout]; simp
  rw [rdValid, rdData, step, hissue, hpop]
  exact ⟨hout, rfl⟩

/-! ### Runs -/

section
variable (f₀ : FifoSync w a) (inp : ℕ → FifoSyncIn w)

/-- A run of the FIFO from reset. -/
def run : ℕ → FifoSync w a := trace step f₀.reset inp

/-- The words pushed before cycle `n`. -/
def pushed (n : ℕ) : List (BitVec w) := collect (fun k => (run f₀ inp k).pushedWord (inp k)) n

/-- The words popped before cycle `n`. -/
def popped (n : ℕ) : List (BitVec w) := collect (fun k => (run f₀ inp k).poppedWord (inp k)) n

/-- What the ideal queue holds under the same pushes and pops. -/
def held : ℕ → List (BitVec w) :=
  Queue.run (fun k => (run f₀ inp k).pushedWord (inp k)) fun k => (run f₀ inp k).pop (inp k)

theorem holds_run (n : ℕ) : ∃ r m, Holds (run f₀ inp n) (held f₀ inp n) r m := by
  induction n with
  | zero => exact ⟨0, 0, Holds.reset f₀⟩
  | succ n ih =>
    obtain ⟨r, m, h⟩ := ih
    exact ⟨_, _, h.step (inp n)⟩

/-- The popped words are the heads of the queue. -/
theorem poppedWord_run (n : ℕ) : (run f₀ inp n).poppedWord (inp n) =
    Queue.taken (held f₀ inp n) ((run f₀ inp n).pop (inp n)) := by
  obtain ⟨r, m, h⟩ := holds_run f₀ inp n
  rw [poppedWord, Queue.taken]
  cases hp : (run f₀ inp n).pop (inp n) with
  | false => rfl
  | true => rw [if_pos rfl, if_pos rfl, List.head?_eq_getElem?, h.front (Bool.and_eq_true_iff.mp hp).1]

/-- Nothing is lost between the two sides. -/
theorem popped_append_held (n : ℕ) : popped f₀ inp n ++ held f₀ inp n = pushed f₀ inp n := by
  have hq := Queue.conserved (fun k => (run f₀ inp k).pushedWord (inp k))
    (fun k => (run f₀ inp k).pop (inp k)) (fun k hk => ?_) n
  · rw [popped, funext (poppedWord_run f₀ inp)]
    exact hq
  · obtain ⟨r', m', h'⟩ := holds_run f₀ inp k
    exact h'.nonempty (Bool.and_eq_true_iff.mp hk).1

/-- `prim_fifo_sync` is a queue of `2 ^ DEPTH_LOG2` words: what is popped and what is held
are what was pushed, in order; full and valid are told from what is held; a word offered
stays until it is taken; and the RAM is never read where it is being written. -/
theorem refines_queue (n : ℕ) :
    popped f₀ inp n <+: pushed f₀ inp n ∧
    popped f₀ inp n ++ held f₀ inp n = pushed f₀ inp n ∧
    (held f₀ inp n).length ≤ 2 ^ a ∧
    ((run f₀ inp n).wrReady = false ↔ (held f₀ inp n).length = 2 ^ a) ∧
    ((run f₀ inp n).rdValid = true → (held f₀ inp n).head? = some (run f₀ inp n).rdData) ∧
    (held f₀ inp n = [] → (run f₀ inp n).push (inp n) = true → (run f₀ inp (n + 2)).rdValid = true) ∧
    ((run f₀ inp n).rdValid = true → (inp n).rdReady = false →
      (run f₀ inp (n + 1)).rdValid = true ∧ (run f₀ inp (n + 1)).rdData = (run f₀ inp n).rdData) ∧
    ((run f₀ inp n).rdIssue (inp n) = true → (run f₀ inp n).push (inp n) = true →
      (run f₀ inp n).raddr ≠ (run f₀ inp n).waddr) := by
  obtain ⟨r, m, h⟩ := holds_run f₀ inp n
  have hconserved := popped_append_held f₀ inp n
  refine ⟨⟨_, hconserved⟩, hconserved, h.fits, h.wrReady_iff, fun hv => ?_, fun hq hp => ?_,
    offered_stays _ _, h.ports_apart _⟩
  · rw [List.head?_eq_getElem?]
    exact h.front hv
  · exact h.fills _ hq hp _

end

/-! ### A reader that keeps up -/

/-- A reader that is always ready takes a word a cycle once the first is at the output. -/
theorem Holds.taken_on {f : FifoSync w a} {q : List (BitVec w)} {r m : ℕ} (h : Holds f q r m)
    (i : FifoSyncIn w) (hr : i.rdReady = true) (hp : f.push i = false) :
    (Queue.next q (f.pushedWord i) (f.pop i)).length = q.length - f.outVld.toNat ∧
      (Queue.next q (f.pushedWord i) (f.pop i) ≠ [] → (f.step i).outVld = true) := by
  have hpop : f.pop i = f.outVld := by rw [pop, hr, Bool.and_true, rdValid]
  have hnone : f.pushedWord i = none := by rw [pushedWord, hp]; rfl
  have hlen : (Queue.next q (f.pushedWord i) (f.pop i)).length = m := by
    have hsplit := h.split
    rw [Queue.next, hnone, hpop, Option.toList_none, List.append_nil, List.length_drop]
    omega
  refine ⟨by have := h.split; omega, fun hne => ?_⟩
  have hissue : f.rdIssue i = true := by
    refine (h.rdIssue_iff i).mpr ⟨?_, ?_⟩
    · rw [← hlen]
      exact List.length_pos_iff.mpr hne
    · rw [hpop]
      cases f.outVld <;> simp
  change (if f.rdIssue i then true else _) = true
  rw [hissue, if_pos rfl]

section
variable (f₀ : FifoSync w a) (inp : ℕ → FifoSyncIn w)

theorem held_succ (n : ℕ) : held f₀ inp (n + 1) = Queue.next (held f₀ inp n)
    ((run f₀ inp n).pushedWord (inp n)) ((run f₀ inp n).pop (inp n)) := rfl

variable {f₀ inp}

/-- While the reader is ready and nothing comes in, the FIFO empties. -/
theorem held_drains {n k : ℕ} (hr : ∀ t, n ≤ t → t ≤ n + k → (inp t).rdReady = true)
    (hp : ∀ t, n ≤ t → t ≤ n + k → (run f₀ inp t).push (inp t) = false) :
    (held f₀ inp (n + k + 1)).length ≤ (held f₀ inp n).length - k ∧
      (held f₀ inp (n + k + 1) ≠ [] → (run f₀ inp (n + k + 1)).outVld = true) := by
  induction k with
  | zero =>
    obtain ⟨r, m, h⟩ := holds_run f₀ inp n
    obtain ⟨hlen, hout⟩ := h.taken_on (inp n) (hr n le_rfl le_rfl) (hp n le_rfl le_rfl)
    exact ⟨hlen.le.trans (Nat.sub_le _ _), hout⟩
  | succ k ih =>
    obtain ⟨hle, hvalid⟩ := ih (fun t h₁ h₂ => hr t h₁ (by omega)) fun t h₁ h₂ => hp t h₁ (by omega)
    obtain ⟨r, m, h⟩ := holds_run f₀ inp (n + k + 1)
    obtain ⟨hlen, hout⟩ := h.taken_on (inp (n + k + 1)) (hr _ (by omega) (by omega))
      (hp _ (by omega) (by omega))
    rw [← held_succ] at hlen hout
    refine ⟨?_, hout⟩
    rw [show n + (k + 1) + 1 = n + k + 1 + 1 by omega, hlen]
    by_cases hne : held f₀ inp (n + k + 1) = []
    · rw [hne, List.length_nil, Nat.zero_sub]
      exact Nat.zero_le _
    · rw [hvalid hne, Bool.toNat_true]
      omega

/-- A word that is held is at the output now or in the next cycle. -/
theorem presented {n : ℕ} (hne : held f₀ inp n ≠ []) :
    (run f₀ inp n).rdValid = true ∨ (run f₀ inp (n + 1)).rdValid = true := by
  obtain ⟨r, m, h⟩ := holds_run f₀ inp n
  cases ho : (run f₀ inp n).outVld with
  | true => exact Or.inl ho
  | false =>
    right
    have hsplit := h.split
    rw [ho, Bool.toNat_false, Nat.zero_add] at hsplit
    have hissue : (run f₀ inp n).rdIssue (inp n) = true :=
      (h.rdIssue_iff (inp n)).mpr ⟨hsplit ▸ List.length_pos_iff.mpr hne, Or.inl ho⟩
    change (if (run f₀ inp n).rdIssue (inp n) then true else _) = true
    rw [hissue, if_pos rfl]

end

end FpgaScope.FifoSync
