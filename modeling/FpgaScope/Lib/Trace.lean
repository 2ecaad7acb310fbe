import Mathlib.Data.List.Basic
import Mathlib.Data.List.Infix
import Mathlib.Data.Nat.Nth
import Mathlib.Tactic

/-! Runs of a synchronous machine over an infinite input, and the values it
hands over cycle by cycle. `trace` is the state in each cycle, `collect` the
list of everything signalled before a cycle. The invariant rules and the
prefix order of `collect` are all that the later modules use. -/

namespace FpgaScope.Clocked

variable {S I O P : Type*}

/-- The state in cycle `n`, starting from `s₀` and fed `inp k` in cycle `k`. -/
def trace (step : S → I → S) (s₀ : S) (inp : ℕ → I) : ℕ → S
  | 0 => s₀
  | n + 1 => step (trace step s₀ inp n) (inp n)

@[simp] theorem trace_zero (step : S → I → S) (s₀ : S) (inp : ℕ → I) :
    trace step s₀ inp 0 = s₀ := rfl

theorem trace_succ (step : S → I → S) (s₀ : S) (inp : ℕ → I) (n : ℕ) :
    trace step s₀ inp (n + 1) = step (trace step s₀ inp n) (inp n) := rfl

/-- A run goes on from any of its states. -/
theorem trace_add (step : S → I → S) (s₀ : S) (inp : ℕ → I) (t n : ℕ) :
    trace step s₀ inp (t + n) = trace step (trace step s₀ inp t) (fun k => inp (t + k)) n := by
  induction n with
  | zero => rfl
  | succ n ih => rw [← Nat.add_assoc, trace_succ, ih, trace_succ]

/-- What holds at the start and survives every step holds in every cycle. -/
theorem trace_invariant (step : S → I → S) (s₀ : S) (inp : ℕ → I) (inv : S → Prop)
    (h₀ : inv s₀) (hstep : ∀ s i, inv s → inv (step s i)) (n : ℕ) :
    inv (trace step s₀ inp n) := by
  induction n with
  | zero => exact h₀
  | succ n ih => exact hstep _ _ ih

/-- The invariant rule with a cycle-indexed invariant, for facts about the past
of the run. -/
theorem invariant_of_step (inv : ℕ → Prop) (h₀ : inv 0) (hstep : ∀ n, inv n → inv (n + 1)) :
    ∀ n, inv n := by
  intro n
  induction n with
  | zero => exact h₀
  | succ n ih => exact hstep n ih

/-- A run depends on the inputs before only. -/
theorem trace_congr (step : S → I → S) (s₀ : S) {inp inp' : ℕ → I} {n : ℕ} (h : ∀ k < n, inp k = inp' k) :
    trace step s₀ inp n = trace step s₀ inp' n := by
  induction n with
  | zero => rfl
  | succ n ih => rw [trace_succ, trace_succ, ih fun k hk => h k (by omega), h n (Nat.lt_succ_self n)]

/-- A component of a machine that steps on its own runs as a machine of its own. -/
theorem trace_component {S' I' : Type*} (step : S → I → S) (step' : S' → I' → S') (s₀ : S)
    (inp : ℕ → I) (π : S → S') (ι : S → I → I') (h : ∀ s i, π (step s i) = step' (π s) (ι s i))
    (n : ℕ) :
    π (trace step s₀ inp n) =
      trace step' (π s₀) (fun k => ι (trace step s₀ inp k) (inp k)) n := by
  induction n with
  | zero => rfl
  | succ n ih => rw [trace_succ, h, ih, trace_succ]

/-- A component with a clock of its own runs on the inputs at its edges. -/
theorem trace_gated (step : S → I → S) (s : ℕ → S) (inp : ℕ → I) (edge : ℕ → Prop) [DecidablePred edge]
    (h : ∀ n, s (n + 1) = if edge n then step (s n) (inp n) else s n) (n : ℕ) :
    s n = trace step (s 0) (fun k => inp (Nat.nth edge k)) (Nat.count edge n) := by
  induction n with
  | zero => rw [Nat.count_zero, trace_zero]
  | succ n ih =>
    rw [h, Nat.count_succ]
    split
    · rename_i hn
      rw [trace_succ, Nat.nth_count hn, ← ih]
    · exact ih

/-- Unwinding: two runs look the same as long as their inputs do, if one step does. -/
theorem trace_unwinding {V J : Type*} {step : S → I → S} (view : S → V) (look : I → J)
    (hstep : ∀ s s' i i', view s = view s' → look i = look i' → view (step s i) = view (step s' i'))
    {s₀ s₀' : S} (h₀ : view s₀ = view s₀') {inp inp' : ℕ → I}
    (hin : ∀ n, look (inp n) = look (inp' n)) (n : ℕ) :
    view (trace step s₀ inp n) = view (trace step s₀' inp' n) := by
  induction n with
  | zero => exact h₀
  | succ n ih => exact hstep _ _ _ _ ih (hin n)

/-- Everything signalled in the cycles before `n`, oldest first. -/
def collect (sig : ℕ → Option O) : ℕ → List O
  | 0 => []
  | n + 1 => collect sig n ++ (sig n).toList

@[simp] theorem collect_zero (sig : ℕ → Option O) : collect sig 0 = [] := rfl

theorem collect_succ (sig : ℕ → Option O) (n : ℕ) :
    collect sig (n + 1) = collect sig n ++ (sig n).toList := rfl

theorem collect_some {sig : ℕ → Option O} {n : ℕ} {x : O} (h : sig n = some x) :
    collect sig (n + 1) = collect sig n ++ [x] := by
  rw [collect_succ, h, Option.toList_some]

theorem collect_none {sig : ℕ → Option O} {n : ℕ} (h : sig n = none) :
    collect sig (n + 1) = collect sig n := by
  rw [collect_succ, h, Option.toList_none, List.append_nil]

theorem collect_mono (sig : ℕ → Option O) {m n : ℕ} (h : m ≤ n) :
    collect sig m <+: collect sig n := by
  induction n, h using Nat.le_induction with
  | base => exact List.prefix_rfl
  | succ n _ ih => exact ih.trans (List.prefix_append _ _)

theorem collect_length_mono (sig : ℕ → Option O) {m n : ℕ} (h : m ≤ n) :
    (collect sig m).length ≤ (collect sig n).length :=
  (collect_mono sig h).length_le

/-- Part of what is signalled. -/
theorem collect_filterMap {O' : Type*} (f : O → Option O') (sig : ℕ → Option O) (n : ℕ) :
    (collect sig n).filterMap f = collect (fun k => (sig k).bind f) n := by
  induction n with
  | zero => rfl
  | succ n ih =>
    rw [collect_succ, collect_succ, List.filterMap_append, ih]
    cases hs : sig n with
    | none => rfl
    | some x =>
      rw [Option.toList_some, Option.bind_some, List.filterMap_cons, List.filterMap_nil]
      cases f x <;> rfl

theorem collect_add (sig : ℕ → Option O) (t m : ℕ) :
    collect sig (t + m) = collect sig t ++ collect (fun k => sig (t + k)) m := by
  induction m with
  | zero => rw [collect_zero, List.append_nil, Nat.add_zero]
  | succ m ih => rw [← Nat.add_assoc, collect_succ, ih, collect_succ, List.append_assoc]

theorem collect_quiet {sig : ℕ → Option O} {n : ℕ} (h : ∀ k < n, sig k = none) : collect sig n = [] := by
  induction n with
  | zero => rfl
  | succ n ih => rw [collect_none (h n (Nat.lt_succ_self n)), ih fun k hk => h k (by omega)]

/-- A signal repeated `d` cycles later hands over the same list. -/
theorem collect_delayed {sig sig' : ℕ → Option O} {d : ℕ} (h : ∀ n, sig' (n + d) = sig n)
    (hearly : ∀ n < d, sig' n = none) (n : ℕ) : collect sig' (n + d) = collect sig n := by
  have hsig : (fun k => sig' (d + k)) = sig := funext fun k => by rw [Nat.add_comm, h]
  rw [Nat.add_comm, collect_add, collect_quiet hearly, hsig, List.nil_append]

theorem collect_congr {sig sig' : ℕ → Option O} {n : ℕ} (h : ∀ k < n, sig k = sig' k) :
    collect sig n = collect sig' n := by
  induction n with
  | zero => rfl
  | succ n ih =>
    rw [collect_succ, collect_succ, ih fun k hk => h k (by omega), h n (Nat.lt_succ_self n)]

/-- A signal that is dropped now and then. -/
theorem collect_sublist {sig sig' : ℕ → Option O} (h : ∀ n, sig n = none ∨ sig n = sig' n) (n : ℕ) :
    List.Sublist (collect sig n) (collect sig' n) := by
  induction n with
  | zero => exact List.Sublist.slnil
  | succ n ih =>
    rw [collect_succ, collect_succ]
    refine ih.append ?_
    rcases h n with hn | hn
    · rw [hn]
      exact List.nil_sublist _
    · rw [hn]

/-- The value signalled in cycle `n` sits at the position counted up to `n`. -/
theorem collect_getElem {sig : ℕ → Option O} {n m : ℕ} {x : O} (h : sig n = some x) (hm : n < m) :
    (collect sig m)[(collect sig n).length]? = some x := by
  have hp := collect_mono sig (show n + 1 ≤ m from hm)
  rw [collect_some h] at hp
  obtain ⟨t, ht⟩ := hp
  rw [← ht]
  simp

/-- One infinite stream extends all the lists of a growing sequence. -/
theorem exists_stream [Inhabited O] {l : ℕ → List O} (hl : ∀ m n, m ≤ n → l m <+: l n) :
    ∃ ρ : ℕ → O, ∀ n k x, (l n)[k]? = some x → ρ k = x := by
  classical
  have hcat : ∀ {a b k : ℕ} {y z : O}, a ≤ b → (l a)[k]? = some y → (l b)[k]? = some z → y = z := by
    intro a b k y z hab hy hz
    obtain ⟨t, ht⟩ := hl a b hab
    obtain ⟨hlt, -⟩ := List.getElem?_eq_some_iff.mp hy
    rw [← ht, List.getElem?_append_left hlt, hy] at hz
    exact Option.some.inj hz
  refine ⟨fun k => if h : ∃ n x, (l n)[k]? = some x then h.choose_spec.choose else default,
    fun n k x hx => ?_⟩
  have h : ∃ n x, (l n)[k]? = some x := ⟨n, x, hx⟩
  have hx' := h.choose_spec.choose_spec
  simp only [dif_pos h]
  rcases Nat.le_total n h.choose with hle | hle
  · exact (hcat hle hx hx').symm
  · exact hcat hle hx' hx

/-! ### The last value -/

/-- The last value signalled before cycle `n`, `v₀` if there was none. -/
def latest (v₀ : O) (sig : ℕ → Option O) (n : ℕ) : O := (collect sig n).getLast?.getD v₀

theorem latest_succ (v₀ : O) (sig : ℕ → Option O) (n : ℕ) :
    latest v₀ sig (n + 1) = (sig n).getD (latest v₀ sig n) := by
  unfold latest
  cases h : sig n with
  | none => rw [collect_none h, Option.getD_none]
  | some x => rw [collect_some h, List.getLast?_concat, Option.getD_some, Option.getD_some]

theorem latest_map {O' : Type*} (f : O → O') (v₀ : O) (sig : ℕ → Option O) (n : ℕ) :
    latest (f v₀) (fun k => (sig k).map f) n = f (latest v₀ sig n) := by
  induction n with
  | zero => rfl
  | succ n ih =>
    rw [latest_succ, latest_succ, ih]
    cases sig n <;> rfl

theorem latest_property {P : O → Prop} {v₀ : O} {sig : ℕ → Option O} (h₀ : P v₀)
    (h : ∀ n x, sig n = some x → P x) (n : ℕ) : P (latest v₀ sig n) := by
  induction n with
  | zero => exact h₀
  | succ n ih =>
    rw [latest_succ]
    cases hs : sig n with
    | none => exact ih
    | some x => exact h n x hs

/-- What was signalled last is held. -/
theorem latest_held {v₀ x : O} {sig : ℕ → Option O} {t n : ℕ} (hx : sig t = some x) (hlt : t < n)
    (hlast : ∀ u, t < u → u < n → sig u = none) : latest v₀ sig n = x := by
  induction n, hlt using Nat.le_induction with
  | base => rw [latest_succ, hx, Option.getD_some]
  | succ n hn ih =>
    rw [latest_succ, hlast n hn (Nat.lt_succ_self n), Option.getD_none]
    exact ih fun u h₁ h₂ => hlast u h₁ (by omega)

/-- A register that loads what is signalled and otherwise holds. -/
theorem eq_latest {reg : ℕ → O} {sig : ℕ → Option O}
    (h : ∀ n, reg (n + 1) = (sig n).getD (reg n)) (n : ℕ) : reg n = latest (reg 0) sig n := by
  induction n with
  | zero => rfl
  | succ n ih => rw [h, ih, latest_succ]

/-! ### What keeps happening -/

/-- `P` holds again and again. -/
def Recurs (P : ℕ → Prop) : Prop := ∀ n, ∃ m, n ≤ m ∧ P m

/-- The next time. -/
theorem Recurs.next {P : ℕ → Prop} (h : Recurs P) (n : ℕ) :
    ∃ m, n ≤ m ∧ P m ∧ ∀ k, n ≤ k → k < m → ¬ P k := by
  classical
  have hex := h n
  obtain ⟨hle, hm⟩ := Nat.find_spec hex
  exact ⟨Nat.find hex, hle, hm, fun k hk hlt hp => Nat.find_min hex hlt ⟨hk, hp⟩⟩

theorem Recurs.mono {P Q : ℕ → Prop} (h : Recurs P) (hpq : ∀ n, P n → Q n) : Recurs Q := by
  intro n
  obtain ⟨m, hm, hp⟩ := h n
  exact ⟨m, hm, hpq m hp⟩

theorem Recurs.shift {P : ℕ → Prop} (h : Recurs P) (t : ℕ) : Recurs fun n => P (t + n) := by
  intro n
  obtain ⟨m, hm, hp⟩ := h (t + n)
  obtain ⟨k, rfl⟩ := Nat.exists_eq_add_of_le (show t ≤ m by omega)
  exact ⟨k, by omega, hp⟩

theorem Recurs.infinite {P : ℕ → Prop} (h : Recurs P) : {n | P n}.Infinite :=
  Nat.frequently_atTop_iff_infinite.mp (Filter.frequently_atTop.mpr h)

theorem Recurs.count_nth {E : ℕ → Prop} [DecidablePred E] (h : Recurs E) (k : ℕ) :
    Nat.count E (Nat.nth E k) = k :=
  Nat.count_nth_of_infinite h.infinite k

/-- From cycle numbers to numbers of edges. -/
theorem Recurs.of_edges {E Q : ℕ → Prop} [DecidablePred E] (h : Recurs E) (hq : Recurs Q) :
    Recurs fun n => E n ∧ Q (Nat.count E n) := by
  intro n
  obtain ⟨k, hk, hQ⟩ := hq (Nat.count E n)
  refine ⟨Nat.nth E k, ?_, Nat.nth_mem_of_infinite h.infinite k, ?_⟩
  · exact (Nat.count_le_iff_le_nth h.infinite).mp hk
  · rwa [h.count_nth]

/-- What holds now and lasts until `P` still holds when `P` does. -/
theorem Recurs.reaches {P Q : ℕ → Prop} (h : Recurs P) {n : ℕ} (hn : Q n)
    (hlast : ∀ k, n ≤ k → ¬ P k → Q k → Q (k + 1)) : ∃ m, n ≤ m ∧ P m ∧ Q m := by
  obtain ⟨m, hm, hp, hmin⟩ := h.next n
  have hq : ∀ k, n ≤ k → k ≤ m → Q k := by
    intro k hk
    induction k, hk using Nat.le_induction with
    | base => exact fun _ => hn
    | succ k hk ih => exact fun hkm => hlast k hk (hmin k hk (by omega)) (ih (by omega))
  exact ⟨m, hm, hp, hq m hm le_rfl⟩

/-- A phase in which every occurrence of `P` uses up some of a measure comes to its end. -/
theorem Recurs.exhausts {P Q R : ℕ → Prop} (h : Recurs P) (μ : ℕ → ℕ) {n : ℕ} (hn : Q n)
    (hstep : ∀ k, n ≤ k → Q k →
      R (k + 1) ∨ (Q (k + 1) ∧ μ (k + 1) ≤ μ k ∧ (P k → μ (k + 1) < μ k))) :
    ∃ m, n < m ∧ R m := by
  induction hμ : μ n using Nat.strong_induction_on generalizing n with
  | _ d ih =>
    obtain ⟨m, hm, hp, -⟩ := h.next n
    -- up to the next occurrence the phase lasts or ends
    have hlast : ∀ k, n ≤ k → (∃ j, n < j ∧ R j) ∨ (Q k ∧ μ k ≤ d) := by
      intro k hk
      induction k, hk using Nat.le_induction with
      | base => exact Or.inr ⟨hn, hμ.le⟩
      | succ k hk ihk =>
        rcases ihk with hend | ⟨hq, hle⟩
        · exact Or.inl hend
        · rcases hstep k hk hq with hr | ⟨hq', hle', -⟩
          · exact Or.inl ⟨k + 1, by omega, hr⟩
          · exact Or.inr ⟨hq', hle'.trans hle⟩
    rcases hlast m hm with hend | ⟨hq, hle⟩
    · exact hend
    · rcases hstep m hm hq with hr | ⟨hq', -, hlt⟩
      · exact ⟨m + 1, by omega, hr⟩
      · obtain ⟨j, hj, hr⟩ := ih (μ (m + 1)) ((hlt hp).trans_le hle) hq'
          (fun k hk => hstep k (by omega)) rfl
        exact ⟨j, by omega, hr⟩

/-- A height that every tick raises, and that is never lost, is reached for good. -/
theorem Recurs.climbs {tick : ℕ → Bool} {Q : ℕ → ℕ → Prop} (h : Recurs fun n => tick n = true)
    {n : ℕ} (hn : Q 0 n) (hdown : ∀ {i j k}, i ≤ j → Q j k → Q i k)
    (hstep : ∀ k, n ≤ k → ∀ i, Q i k → Q (i + (tick k).toNat) (k + 1)) (i : ℕ) :
    ∃ m, n ≤ m ∧ ∀ k, m ≤ k → Q i k := by
  have hstays : ∀ {m i}, n ≤ m → Q i m → ∀ k, m ≤ k → Q i k := by
    intro m i hm hq k hk
    induction k, hk using Nat.le_induction with
    | base => exact hq
    | succ k hk ih => exact hdown (Nat.le_add_right _ _) (hstep k (hm.trans hk) i ih)
  induction i with
  | zero => exact ⟨n, le_rfl, hstays le_rfl hn⟩
  | succ i ih =>
    obtain ⟨m, hm, hreach⟩ := ih
    obtain ⟨k, hk, hedge⟩ := h m
    have hnext := hstep k (hm.trans hk) i (hreach k hk)
    rw [hedge, Bool.toNat_true] at hnext
    exact ⟨k + 1, by omega, hstays (by omega) hnext⟩

end FpgaScope.Clocked
