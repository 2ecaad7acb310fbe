import Mathlib.Data.List.Basic
import Mathlib.Data.List.Nodup
import Mathlib.Data.Set.Function
import Mathlib.Tactic

/-! Logs of value changes. `valueAt` reads a log: a variable has the value of its last change at
or before an instant. `emit` writes one, an instant at a time: it remembers a value for every
name and logs, under the variable's key, what is new. `Remembered` is the invariant between the
two, and `valueAt_emitAll` the result of reading back a whole log. -/

namespace FpgaScope

structure Change (K V : Type*) where
  time : ℕ
  key : K
  value : V

namespace Change

variable {K V N : Type*}

/-! ### Reading -/

section Reading

variable [DecidableEq K]

/-- The value of the last change. -/
def held (log : List (Change K V)) (k : K) : Option V :=
  ((log.filter fun c => c.key = k).getLast?).map value

/-- The value of the last change at or before `t`. -/
def valueAt (log : List (Change K V)) (k : K) (t : ℕ) : Option V :=
  held (log.filter fun c => c.time ≤ t) k

theorem held_append (log new : List (Change K V)) (k : K) :
    held (log ++ new) k = (held new k).or (held log k) := by
  rw [held, held, held, List.filter_append, List.getLast?_append]
  cases (new.filter fun c => c.key = k).getLast? <;> rfl

theorem held_cons (c : Change K V) (log : List (Change K V)) (k : K) :
    held (c :: log) k = (held log k).or (if c.key = k then some c.value else none) := by
  rw [show c :: log = [c] ++ log from rfl, held_append]
  congr 1
  unfold held
  by_cases h : c.key = k
  · rw [List.filter_cons_of_pos (by simpa using h), if_pos h]
    rfl
  · rw [List.filter_cons_of_neg (by simpa using h), if_neg h]
    rfl

theorem valueAt_of_le {log : List (Change K V)} {t : ℕ} (h : ∀ c ∈ log, c.time ≤ t) (k : K) :
    valueAt log k t = held log k := by
  rw [valueAt, List.filter_eq_self.mpr fun c hc => by simpa using h c hc]

/-- Later changes do not matter. -/
theorem valueAt_append {log new : List (Change K V)} {t : ℕ} (h : ∀ c ∈ new, t < c.time) (k : K) :
    valueAt (log ++ new) k t = valueAt log k t := by
  have hnew : new.filter (fun c => c.time ≤ t) = [] :=
    List.filter_eq_nil_iff.mpr fun c hc => by simpa using h c hc
  rw [valueAt, valueAt, List.filter_append, hnew, List.append_nil]

end Reading

/-! ### Writing -/

section Writing

variable [DecidableEq V] [DecidableEq N]

/-- The values of one instant: what is remembered then, and the changes. -/
def emit (key : N → K) (t : ℕ) : List (N × V) → (N → Option V) → (N → Option V) × List (Change K V)
  | [], prev => (prev, [])
  | (n, v) :: rest, prev =>
    if prev n = some v then emit key t rest prev
    else
      let r := emit key t rest (Function.update prev n (some v))
      (r.1, ⟨t, key n, v⟩ :: r.2)

theorem emit_append (key : N → K) (t : ℕ) (row row' : List (N × V)) (prev : N → Option V) :
    emit key t (row ++ row') prev =
      ((emit key t row' (emit key t row prev).1).1,
        (emit key t row prev).2 ++ (emit key t row' (emit key t row prev).1).2) := by
  induction row generalizing prev with
  | nil => rfl
  | cons nv rest ih =>
    obtain ⟨n, v⟩ := nv
    rw [List.cons_append, emit, emit]
    split
    · exact ih prev
    · rw [ih]
      rfl

/-- The values of successive instants from `t` on. -/
def emitAll (key : N → K) : ℕ → List (List (N × V)) → (N → Option V) → List (Change K V)
  | _, [], _ => []
  | t, row :: rows, prev =>
    (emit key t row prev).2 ++ emitAll key (t + 1) rows (emit key t row prev).1

variable {key : N → K} {t : ℕ}

theorem emit_time (row : List (N × V)) (prev : N → Option V) :
    ∀ c ∈ (emit key t row prev).2, c.time = t := by
  induction row generalizing prev with
  | nil =>
    intro c hc
    cases hc
  | cons nv rest ih =>
    obtain ⟨n, v⟩ := nv
    rw [emit]
    split
    · exact ih prev
    · intro c hc
      rcases List.mem_cons.mp hc with rfl | hc
      · rfl
      · exact ih _ c hc

theorem emit_other {row : List (N × V)} {n : N} (hn : n ∉ row.map Prod.fst) (prev : N → Option V) :
    (emit key t row prev).1 n = prev n := by
  induction row generalizing prev with
  | nil => rfl
  | cons nv rest ih =>
    obtain ⟨m, v⟩ := nv
    rw [List.map_cons, List.mem_cons, not_or] at hn
    rw [emit]
    split
    · exact ih hn.2 prev
    · rw [ih hn.2, Function.update_of_ne hn.1]

/-- After an instant its values are remembered. -/
theorem emit_value {row : List (N × V)} (hrow : (row.map Prod.fst).Nodup) {n : N} {v : V}
    (hnv : (n, v) ∈ row) (prev : N → Option V) : (emit key t row prev).1 n = some v := by
  induction row generalizing prev with
  | nil => cases hnv
  | cons mw rest ih =>
    obtain ⟨m, w⟩ := mw
    rw [List.map_cons, List.nodup_cons] at hrow
    rw [emit]
    rcases List.mem_cons.mp hnv with heq | hrest
    · obtain ⟨rfl, rfl⟩ := Prod.mk.injEq .. ▸ heq
      split
      · rename_i hprev
        rw [emit_other hrow.1, hprev]
      · exact (emit_other hrow.1 _).trans (Function.update_self ..)
    · split
      · exact ih hrow.2 hrest prev
      · exact ih hrow.2 hrest _

theorem emitAll_time (rows : List (List (N × V))) (prev : N → Option V) :
    ∀ c ∈ emitAll key t rows prev, t ≤ c.time := by
  induction rows generalizing t prev with
  | nil =>
    intro c hc
    cases hc
  | cons row rows ih =>
    intro c hc
    rcases List.mem_append.mp hc with hc | hc
    · exact (emit_time row prev c hc).ge
    · exact (Nat.le_succ t).trans (ih _ c hc)

end Writing

/-! ### Round trip -/

section RoundTrip

variable [DecidableEq K] [DecidableEq V] [DecidableEq N]

/-- What is remembered for the names of a set is what a reader of the log holds. -/
def Remembered (key : N → K) (names : Set N) (prev : N → Option V) (log : List (Change K V)) : Prop :=
  ∀ n ∈ names, prev n = held log (key n)

variable {key : N → K} {t : ℕ} {names : Set N}

theorem Remembered.emit (hkey : Set.InjOn key names) {row : List (N × V)}
    (hrow : ∀ nv ∈ row, nv.1 ∈ names) {prev : N → Option V} {log : List (Change K V)}
    (h : Remembered key names prev log) :
    Remembered key names (Change.emit key t row prev).1 (log ++ (Change.emit key t row prev).2) := by
  induction row generalizing prev log with
  | nil =>
    rw [Change.emit, List.append_nil]
    exact h
  | cons nv rest ih =>
    obtain ⟨n, v⟩ := nv
    have hn : n ∈ names := hrow (n, v) List.mem_cons_self
    have hrest : ∀ nv ∈ rest, nv.1 ∈ names := fun nv hnv => hrow nv (List.mem_cons_of_mem _ hnv)
    rw [Change.emit]
    split
    · exact ih hrest h
    · have hnew : Remembered key names (Function.update prev n (some v)) (log ++ [⟨t, key n, v⟩]) := by
        intro m hm
        rw [held_append, held_cons, show held ([] : List (Change K V)) (key m) = none from rfl, Option.none_or]
        by_cases hmn : m = n
        · rw [hmn, Function.update_self, if_pos rfl, Option.some_or]
        · rw [Function.update_of_ne hmn, if_neg fun heq => hmn (hkey hm hn heq.symm), Option.none_or]
          exact h m hm
      have := ih hrest hnew
      rw [List.append_assoc] at this
      exact this

/-- Reading back what was written gives the values of every instant. -/
theorem valueAt_emitAll (hkey : Set.InjOn key names) {rows : List (List (N × V))}
    (hnames : ∀ row ∈ rows, ∀ nv ∈ row, nv.1 ∈ names)
    (hnodup : ∀ row ∈ rows, (row.map Prod.fst).Nodup) {prev : N → Option V}
    {log : List (Change K V)} (hlog : ∀ c ∈ log, c.time ≤ t) (h : Remembered key names prev log)
    {i : ℕ} {row : List (N × V)} (hi : rows[i]? = some row) {n : N} {v : V} (hnv : (n, v) ∈ row) :
    valueAt (log ++ emitAll key t rows prev) (key n) (t + i) = some v := by
  induction rows generalizing t prev log i with
  | nil => cases hi
  | cons row' rows ih =>
    have hmem : row' ∈ row' :: rows := List.mem_cons_self
    have hsync := h.emit (t := t) hkey (hnames row' hmem)
    have hlog' : ∀ c ∈ log ++ (emit key t row' prev).2, c.time ≤ t := by
      intro c hc
      rcases List.mem_append.mp hc with hc | hc
      · exact hlog c hc
      · exact (emit_time row' prev c hc).le
    rw [emitAll, ← List.append_assoc]
    cases i with
    | zero =>
      obtain rfl : row' = row := Option.some.inj hi
      have hlate : ∀ c ∈ emitAll key (t + 1) rows (Change.emit key t row' prev).1, t < c.time :=
        emitAll_time rows _
      rw [show t + 0 = t from rfl, valueAt_append hlate, valueAt_of_le hlog',
        ← hsync n (hnames row' hmem (n, v) hnv), emit_value (hnodup row' hmem) hnv]
    | succ i =>
      rw [show t + (i + 1) = t + 1 + i by omega]
      exact ih (fun row hrow => hnames row (List.mem_cons_of_mem _ hrow))
        (fun row hrow => hnodup row (List.mem_cons_of_mem _ hrow))
        (fun c hc => (hlog' c hc).trans (Nat.le_succ t)) hsync hi

end RoundTrip

end Change

end FpgaScope
