import FpgaScope.Lib.Trace

/-! Scripts of accesses to a register bus, one at a time. A script is a tree: the data of a
read decides how it goes on. `Plays` says how a script goes by on the signals of a bus, with
any pauses between its accesses and before its responses. The triples over `Plays` state what a
script makes of the cycles before it. -/

namespace FpgaScope.Clocked

/-- Results live in `Type` so that scripts can be written with `do`. -/
inductive Script (A D R : Type)
  | done (r : R)
  | write (addr : A) (data : D) (rest : Script A D R)
  | read (addr : A) (rest : D → Script A D R)

inductive Access (A D : Type)
  | write (addr : A) (data : D)
  | read (addr : A)
  deriving DecidableEq

namespace Script

variable {A D R S : Type}

def bind : Script A D R → (R → Script A D S) → Script A D S
  | done r, f => f r
  | write a d s, f => write a d (s.bind f)
  | read a k, f => read a fun d => (k d).bind f

instance : Monad (Script A D) where
  pure := done
  bind := bind

/-- Every access the script can come to is one of `P`. -/
def Only (P : Access A D → Prop) : Script A D R → Prop
  | done _ => True
  | write a d s => P (.write a d) ∧ s.Only P
  | read a k => P (.read a) ∧ ∀ d, (k d).Only P

theorem Only.bind {P : Access A D → Prop} {s : Script A D R} {f : R → Script A D S} (hs : s.Only P)
    (hf : ∀ r, (f r).Only P) : (s.bind f).Only P := by
  induction s with
  | done r => exact hf r
  | write a d s ih => exact ⟨hs.1, ih hs.2⟩
  | read a k ih => exact ⟨hs.1, fun d => ih d (hs.2 d)⟩

end Script

/-! ### Scripts on a bus -/

/-- The access that the bus accepts in a cycle, and the read data that are valid in it. -/
structure BusSignals (A D : Type) where
  issued : ℕ → Option (Access A D)
  data : ℕ → Option D

variable {A D R S : Type}

/-- What every cycle without an access keeps holds after a pause. -/
theorem paused {b : BusSignals A D} {I : ℕ → Prop} {t u : ℕ} (hquiet : ∀ v, t ≤ v → v < u → b.issued v = none)
    (hstep : ∀ n, I n → b.issued n = none → I (n + 1)) (hle : t ≤ u) (hI : I t) : I u := by
  induction u, hle using Nat.le_induction with
  | base => exact hI
  | succ u hle ih => exact hstep u (ih fun v h₁ h₂ => hquiet v h₁ (by omega)) (hquiet u hle (Nat.lt_succ_self u))

/-- After a pause from cycle `t` on access `x` is accepted in cycle `u`. -/
structure Accesses (b : BusSignals A D) (t u : ℕ) (x : Access A D) : Prop where
  le : t ≤ u
  pause : ∀ v, t ≤ v → v < u → b.issued v = none
  issued : b.issued u = some x

/-- The read of cycle `u` is answered in cycle `v`, the first one since with valid data; no access
comes before that is over. -/
structure Responds (b : BusSignals A D) (u v : ℕ) (d : D) : Prop where
  lt : u < v
  pending : ∀ w, u < w → w < v → b.data w = none
  data : b.data v = some d
  pause : ∀ w, u < w → w ≤ v → b.issued w = none

/-- What every cycle keeps without an access still holds when the access comes, and after it if
the access keeps it. -/
theorem Accesses.carry {b : BusSignals A D} {I : ℕ → Prop} {Q : Access A D → Prop} {t u : ℕ} {x : Access A D}
    (h : Accesses b t u x) (hstep : ∀ n, I n → (∀ x, b.issued n = some x → Q x) → I (n + 1)) (hI : I t) :
    I u ∧ (Q x → I (u + 1)) := by
  have hnow : I u := paused h.pause (fun n hn hq => hstep n hn fun x hx => by rw [hq] at hx; cases hx) h.le hI
  refine ⟨hnow, fun hQ => hstep u hnow fun y hy => ?_⟩
  rw [h.issued] at hy
  exact Option.some.inj hy ▸ hQ

theorem Responds.carry {b : BusSignals A D} {I : ℕ → Prop} {Q : Access A D → Prop} {u v : ℕ} {d : D}
    (h : Responds b u v d) (hstep : ∀ n, I n → (∀ x, b.issued n = some x → Q x) → I (n + 1)) (hI : I (u + 1)) :
    I (v + 1) :=
  paused (fun w h₁ h₂ => h.pause w (by omega) (by omega))
    (fun n hn hq => hstep n hn fun x hx => by rw [hq] at hx; cases hx) (Nat.succ_le_succ h.lt.le) hI

/-- The script goes by from cycle `t` to cycle `t'` and ends with a result. -/
inductive Plays (b : BusSignals A D) : ℕ → Script A D R → ℕ → R → Prop
  | done (t : ℕ) (r : R) : Plays b t (.done r) t r
  | write {t u t' : ℕ} {a : A} {d : D} {s : Script A D R} {r : R} :
      Accesses b t u (.write a d) → Plays b (u + 1) s t' r → Plays b t (.write a d s) t' r
  | read {t u v t' : ℕ} {a : A} {d : D} {k : D → Script A D R} {r : R} :
      Accesses b t u (.read a) → Responds b u v d → Plays b (v + 1) (k d) t' r → Plays b t (.read a k) t' r

/-- The bus left alone from cycle `t` on. -/
def BusSignals.cut (b : BusSignals A D) (t : ℕ) : BusSignals A D where
  issued n := if n < t then b.issued n else none
  data := b.data

namespace Plays

variable {b : BusSignals A D} {t t' : ℕ}

theorem le {s : Script A D R} {r : R} (h : Plays b t s t' r) : t ≤ t' := by
  induction h with
  | done => exact le_rfl
  | write ha _ ih => exact ha.le.trans (by omega)
  | read ha hr _ ih => exact ha.le.trans (hr.lt.le.trans (by omega))

theorem bind {s : Script A D R} {f : R → Script A D S} {r : S} :
    Plays b t (s.bind f) t' r ↔ ∃ u x, Plays b t s u x ∧ Plays b u (f x) t' r := by
  constructor
  · intro h
    induction s generalizing t with
    | done x => exact ⟨t, x, .done t x, h⟩
    | write a d s ih =>
      cases h with
      | write ha h =>
        obtain ⟨u, x, hs, hf⟩ := ih h
        exact ⟨u, x, .write ha hs, hf⟩
    | read a k ih =>
      cases h with
      | read ha hr h =>
        obtain ⟨u, x, hs, hf⟩ := ih _ h
        exact ⟨u, x, .read ha hr hs, hf⟩
  · rintro ⟨u, x, hs, hf⟩
    induction hs with
    | done => exact hf
    | write ha _ ih => exact .write ha (ih hf)
    | read ha hr _ ih => exact .read ha hr (ih hf)

/-- Between the cycles of a play only accesses of the script come. -/
theorem only {P : Access A D → Prop} {s : Script A D R} {r : R} (h : Plays b t s t' r) (hs : s.Only P)
    {w : ℕ} (h₁ : t ≤ w) (h₂ : w < t') {x : Access A D} (hx : b.issued w = some x) : P x := by
  induction h with
  | done => omega
  | @write t u t' a d s r ha _ ih =>
    rcases Nat.lt_trichotomy w u with hlt | rfl | hgt
    · rw [ha.pause w h₁ hlt] at hx
      cases hx
    · rw [ha.issued] at hx
      exact Option.some.inj hx ▸ hs.1
    · exact ih hs.2 hgt h₂
  | @read t u v t' a d k r ha hr _ ih =>
    rcases Nat.lt_trichotomy w u with hlt | rfl | hgt
    · rw [ha.pause w h₁ hlt] at hx
      cases hx
    · rw [ha.issued] at hx
      exact Option.some.inj hx ▸ hs.1
    · rcases Nat.lt_or_ge v w with hlt | hge
      · exact ih (hs.2 _) hlt h₂
      · rw [hr.pause w hgt hge] at hx
        cases hx

/-- A script can as well begin a cycle earlier. -/
theorem earlier {s : Script A D R} {r : R} (hq : b.issued t = none) (h : Plays b (t + 1) s t' r) :
    ∃ u, Plays b t s u r := by
  have hacc : ∀ {u x}, Accesses b (t + 1) u x → Accesses b t u x := fun {u x} ha =>
    ⟨(Nat.le_succ t).trans ha.le, fun v h₁ h₂ => (Nat.eq_or_lt_of_le h₁).elim (fun he => he ▸ hq) fun hlt => ha.pause v hlt h₂,
      ha.issued⟩
  cases h with
  | done => exact ⟨t, .done t r⟩
  | write ha h => exact ⟨t', .write (hacc ha) h⟩
  | read ha hr h => exact ⟨t', .read (hacc ha) hr h⟩

/-- What comes after a play does not matter. -/
theorem cut {s : Script A D R} {r : R} (h : Plays b t s t' r) : Plays (b.cut t') t s t' r := by
  have hnone : ∀ n, b.issued n = none → (b.cut t').issued n = none := fun n hn => by
    change (if n < t' then b.issued n else none) = none
    rw [hn, ite_self]
  have hacc : ∀ t u x, u < t' → Accesses b t u x → Accesses (b.cut t') t u x := fun t u x hu ha =>
    ⟨ha.le, fun v h₁ h₂ => hnone v (ha.pause v h₁ h₂), (if_pos hu).trans ha.issued⟩
  have hall : ∀ {t t'' : ℕ} {s : Script A D R} {r : R}, Plays b t s t'' r → t'' ≤ t' → Plays (b.cut t') t s t'' r := by
    intro t t'' s r h
    induction h with
    | done t r => exact fun _ => .done t r
    | write ha h ih => exact fun hle => .write (hacc _ _ _ (h.le.trans hle) ha) (ih hle)
    | read ha hr h ih =>
      have hlt := hr.lt
      intro hle
      have hend := h.le
      exact .read (hacc _ _ _ (by omega) ha)
        ⟨hr.lt, hr.pending, hr.data, fun w h₁ h₂ => hnone w (hr.pause w h₁ h₂)⟩ (ih hle)
  exact hall h le_rfl

end Plays

/-! ### Triples -/

/-- Played from a cycle of `P` the script ends in a cycle of `Q`. -/
def Triple (b : BusSignals A D) (P : ℕ → Prop) (s : Script A D R) (Q : R → ℕ → Prop) : Prop :=
  ∀ t t' r, P t → Plays b t s t' r → Q r t'

namespace Triple

variable {b : BusSignals A D} {P N : ℕ → Prop}

theorem done {Q : R → ℕ → Prop} {r : R} (h : ∀ t, P t → Q r t) : Triple b P (.done r) Q := by
  intro t t' r' hP hplay
  cases hplay with
  | done => exact h t hP

theorem write {Q : R → ℕ → Prop} {a : A} {d : D} {s : Script A D R}
    (ha : ∀ t u, P t → Accesses b t u (.write a d) → N (u + 1)) (hs : Triple b N s Q) :
    Triple b P (.write a d s) Q := by
  intro t t' r hP hplay
  cases hplay with
  | write hacc hplay => exact hs _ _ _ (ha _ _ hP hacc) hplay

theorem read {Q : R → ℕ → Prop} {M : D → ℕ → Prop} {a : A} {k : D → Script A D R}
    (ha : ∀ t u v d, P t → Accesses b t u (.read a) → Responds b u v d → M d (v + 1))
    (hk : ∀ d, Triple b (M d) (k d) Q) : Triple b P (.read a k) Q := by
  intro t t' r hP hplay
  cases hplay with
  | read hacc hresp hplay => exact hk _ _ _ _ (ha _ _ _ _ hP hacc hresp) hplay

theorem bind {M : R → ℕ → Prop} {Q : S → ℕ → Prop} {s : Script A D R} {f : R → Script A D S}
    (hs : Triple b P s M) (hf : ∀ r, Triple b (M r) (f r) Q) : Triple b P (s.bind f) Q := by
  intro t t' r hP hplay
  obtain ⟨u, x, hplay, hrest⟩ := Plays.bind.mp hplay
  exact hf x _ _ _ (hs _ _ _ hP hplay) hrest

theorem weaken {Q : R → ℕ → Prop} {s : Script A D R} (hs : Triple b N s Q) (h : ∀ t, P t → N t) :
    Triple b P s Q := fun t t' r hP hplay => hs t t' r (h t hP) hplay

theorem of_and {F : Prop} {Q : R → ℕ → Prop} {s : Script A D R} (hs : F → Triple b P s Q) :
    Triple b (fun t => F ∧ P t) s Q :=
  fun t t' r ⟨hF, hP⟩ hplay => hs hF t t' r hP hplay

theorem of_exists {ι : Sort*} {F : ι → ℕ → Prop} {Q : R → ℕ → Prop} {s : Script A D R}
    (hs : ∀ i, Triple b (F i) s Q) : Triple b (fun t => ∃ i, F i t) s Q :=
  fun t t' r ⟨i, hi⟩ hplay => hs i t t' r hi hplay

/-- What holds in a cycle without an access and in one with an access of the script holds
after the script. -/
theorem keeps {I : ℕ → Prop} {Q : Access A D → Prop} {s : Script A D R} (hs : s.Only Q)
    (hstep : ∀ n, I n → (∀ x, b.issued n = some x → Q x) → I (n + 1)) : Triple b I s fun _ => I := by
  intro t t' r hI hplay
  have hall : ∀ v, t ≤ v → v ≤ t' → I v := by
    intro v h₁
    induction v, h₁ using Nat.le_induction with
    | base => exact fun _ => hI
    | succ v h₁ ih => exact fun h₂ => hstep v (ih (by omega)) fun x hx => hplay.only hs h₁ h₂ hx
  exact hall t' hplay.le le_rfl

end Triple

end FpgaScope.Clocked
