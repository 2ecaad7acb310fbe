import FpgaScope.Lib.Trace

/-! An ideal queue, one cycle at a time: the head leaves when it is taken, a word that is
put joins at the end. Nothing is ever taken from an empty queue in a run that this module
speaks of; then what was put is what was taken followed by what is held. -/

namespace FpgaScope.Queue

open Clocked

variable {α : Type*}

def next (q : List α) (put : Option α) (take : Bool) : List α := q.drop take.toNat ++ put.toList

/-- What is held in cycle `n`, starting from the empty queue. -/
def run (put : ℕ → Option α) (take : ℕ → Bool) : ℕ → List α
  | 0 => []
  | n + 1 => next (run put take n) (put n) (take n)

/-- The word taken from `q`. -/
def taken (q : List α) (take : Bool) : Option α := if take then q.head? else none

theorem next_length {q : List α} (put : Option α) {take : Bool} (h : take = true → q ≠ []) :
    (next q put take).length + take.toNat = q.length + put.toList.length := by
  have hle : take.toNat ≤ q.length := by
    cases take with
    | false => exact Nat.zero_le _
    | true => exact List.length_pos_iff.mpr (h rfl)
  rw [next, List.length_append, List.length_drop]
  omega

/-- The words that stay are found `take` places further on. -/
theorem next_getElem (q : List α) (put : Option α) (take : Bool) {k : ℕ}
    (h : take.toNat + k < q.length) : (next q put take)[k]? = q[take.toNat + k]? := by
  rw [next, List.getElem?_append_left (by rw [List.length_drop]; omega), List.getElem?_drop]

theorem taken_append {q : List α} {take : Bool} (h : take = true → q ≠ []) :
    (taken q take).toList ++ q.drop take.toNat = q := by
  cases take with
  | false => rfl
  | true =>
    cases q with
    | nil => exact absurd rfl (h rfl)
    | cons x q => rfl

/-- Nothing is lost, duplicated or reordered. -/
theorem conserved (put : ℕ → Option α) (take : ℕ → Bool)
    (h : ∀ n, take n = true → run put take n ≠ []) (n : ℕ) :
    collect (fun k => taken (run put take k) (take k)) n ++ run put take n = collect put n := by
  induction n with
  | zero => rfl
  | succ n ih =>
    rw [collect_succ, collect_succ, ← ih, run, next, List.append_assoc, List.append_assoc,
      ← List.append_assoc _ _ (put n).toList, taken_append (h n)]

/-- Anything that steps as the queue does holds what the queue holds. -/
theorem eq_run {held : ℕ → List α} {put : ℕ → Option α} {take : ℕ → Bool} (h₀ : held 0 = [])
    (hstep : ∀ n, held (n + 1) = next (held n) (put n) (take n)) (n : ℕ) : held n = run put take n := by
  induction n with
  | zero => exact h₀
  | succ n ih => rw [hstep, ih, run]

/-- The same, of what holds the words. -/
theorem conserved_of_step (held : ℕ → List α) (put : ℕ → Option α) (take : ℕ → Bool) (h₀ : held 0 = [])
    (hstep : ∀ n, held (n + 1) = next (held n) (put n) (take n)) (h : ∀ n, take n = true → held n ≠ [])
    (n : ℕ) : collect (fun k => taken (held k) (take k)) n ++ held n = collect put n := by
  have hrun := eq_run h₀ hstep
  have hcons := conserved put take (fun k hk => hrun k ▸ h k hk) n
  rw [← hrun n] at hcons
  rw [← hcons]
  congr 2
  funext k
  rw [hrun k]

end FpgaScope.Queue
