import Mathlib.Data.List.Basic
import Mathlib.Data.List.Infix
import Mathlib.Tactic

/-! Run-length words over a stream. A data word is one element, a count word repeats
the element before it. `Tiles` says that words, each with the stream position where
it ends, lie end to end over the stream once a data word has been seen; counts
before that are dropped by the decoder. Any contiguous part of a tiling is one, so
any window of the words decodes to a contiguous part of the stream. -/

namespace FpgaScope

inductive RunWord (α : Type*) where
  | data (v : α)
  | count (n : ℕ)

namespace RunWord

variable {α : Type*}

/-- Decoding with the element to repeat, if any. -/
def decode : Option α → List (RunWord α) → List α
  | _, [] => []
  | _, data v :: l => v :: decode (some v) l
  | none, count _ :: l => decode none l
  | some c, count n :: l => List.replicate n c ++ decode (some c) l

theorem decode_append_data (c : Option α) (l l' : List (RunWord α)) (v : α) :
    decode c (l ++ data v :: l') = decode c l ++ v :: decode (some v) l' := by
  induction l generalizing c with
  | nil => cases c <;> rfl
  | cons w l ih =>
    cases w with
    | data v' => simp [decode, ih]
    | count n => cases c <;> simp [decode, ih]

/-- The element to repeat after some words. -/
def cur : Option α → List (RunWord α) → Option α
  | c, [] => c
  | _, data v :: l => cur (some v) l
  | c, count _ :: l => cur c l

theorem cur_append (c : Option α) (l l' : List (RunWord α)) : cur c (l ++ l') = cur (cur c l) l' := by
  induction l generalizing c with
  | nil => rfl
  | cons w l ih => cases w <;> exact ih _

theorem decode_append (c : Option α) (l l' : List (RunWord α)) :
    decode c (l ++ l') = decode c l ++ decode (cur c l) l' := by
  induction l generalizing c with
  | nil => cases c <;> rfl
  | cons w l ih =>
    cases w with
    | data v => exact congrArg (v :: ·) (ih _)
    | count n =>
      cases c with
      | none => exact ih none
      | some c =>
        change List.replicate n c ++ decode (some c) (l ++ l') =
          List.replicate n c ++ decode (some c) l ++ decode (cur (some c) l) l'
        rw [ih, List.append_assoc]

/-- The elements from position `m` up to position `e`. -/
def span (xs : List α) (m e : ℕ) : List α := (xs.drop m).take (e - m)

theorem span_length (xs : List α) {m e : ℕ} (h : e ≤ xs.length) : (span xs m e).length = e - m := by
  rw [span, List.length_take, List.length_drop]
  omega

theorem span_append (xs : List α) {m q e : ℕ} (h₁ : m ≤ q) (h₂ : q ≤ e) :
    span xs m q ++ span xs q e = span xs m e := by
  have hdrop : xs.drop q = (xs.drop m).drop (q - m) := by
    rw [List.drop_drop]
    congr 1
    omega
  rw [span, span, span, hdrop, ← List.take_add]
  congr 1
  omega

theorem span_single (xs : List α) {j : ℕ} {v : α} (h : xs[j]? = some v) :
    span xs j (j + 1) = [v] := by
  obtain ⟨hlt, rfl⟩ := List.getElem?_eq_some_iff.mp h
  rw [span, List.drop_eq_getElem_cons hlt, Nat.add_sub_cancel_left]
  rfl

theorem span_const (xs : List α) {q e : ℕ} {c : α} (he : e ≤ xs.length)
    (h : ∀ i, q ≤ i → i < e → xs[i]? = some c) : span xs q e = List.replicate (e - q) c := by
  apply List.ext_getElem?
  intro i
  rcases Nat.lt_or_ge i (e - q) with hi | hi
  · rw [span, List.getElem?_take_of_lt hi, List.getElem?_drop, h _ (by omega) (by omega),
      List.getElem?_replicate, if_pos hi]
  · rw [List.getElem?_eq_none (by rw [span_length xs he]; exact hi),
      List.getElem?_eq_none (by simpa using hi)]

/-! ### Tilings -/

/-- A word that ends at `e` continues a tiling that has come to `s`. -/
def Fits (xs : List α) : Option ℕ → RunWord α → ℕ → Prop
  | none, data v, e => 1 ≤ e ∧ xs[e - 1]? = some v
  | some q, data v, e => e = q + 1 ∧ xs[q]? = some v
  | none, count _, _ => True
  | some q, count n, e => e = q + n ∧ e ≤ xs.length ∧ ∀ i, q ≤ i → i < e → xs[i]? = xs[q - 1]?

/-- Where the tiling has come to; `none` before the first data word. -/
def advance : Option ℕ → RunWord α × ℕ → Option ℕ
  | _, (data _, e) => some e
  | none, (count _, _) => none
  | some _, (count _, e) => some e

def endOf (s : Option ℕ) (l : List (RunWord α × ℕ)) : Option ℕ := l.foldl advance s

def Tiles (xs : List α) : Option ℕ → List (RunWord α × ℕ) → Prop
  | _, [] => True
  | s, (w, e) :: l => Fits xs s w e ∧ Tiles xs (advance s (w, e)) l

variable {xs ys : List α} {s : Option ℕ} {l l' : List (RunWord α × ℕ)}

theorem endOf_append (s : Option ℕ) (l l' : List (RunWord α × ℕ)) :
    endOf s (l ++ l') = endOf (endOf s l) l' := List.foldl_append

theorem tiles_append : Tiles xs s (l ++ l') ↔ Tiles xs s l ∧ Tiles xs (endOf s l) l' := by
  induction l generalizing s with
  | nil => simp [Tiles, endOf]
  | cons x l ih =>
    obtain ⟨w, e⟩ := x
    simp only [List.cons_append, Tiles, ih, and_assoc]
    rfl

/-- Cutting off the front of a tiling leaves a tiling. -/
theorem Tiles.forget (h : Tiles xs s l) : Tiles xs none l := by
  induction l generalizing s with
  | nil => trivial
  | cons x l ih =>
    obtain ⟨w, e⟩ := x
    obtain ⟨hfit, hrest⟩ := h
    cases w with
    | data v =>
      refine ⟨?_, hrest⟩
      cases s with
      | none => exact hfit
      | some q =>
        obtain ⟨rfl, hq⟩ := hfit
        exact ⟨by omega, hq⟩
    | count n => exact ⟨trivial, ih hrest⟩

theorem Tiles.part (h : Tiles xs s l) (k n : ℕ) : Tiles xs none ((l.drop k).take n) := by
  rw [← List.take_append_drop k l, tiles_append] at h
  have hdrop := h.2.forget
  rw [← List.take_append_drop n (l.drop k), tiles_append] at hdrop
  exact hdrop.1

/-- A longer stream has the same tilings. -/
theorem Tiles.mono (h : Tiles xs s l) (hx : xs <+: ys) : Tiles ys s l := by
  have hget : ∀ {i : ℕ}, i < xs.length → ys[i]? = xs[i]? := by
    intro i hi
    obtain ⟨t, rfl⟩ := hx
    exact List.getElem?_append_left hi
  have hlen : ∀ {i : ℕ} {v : α}, xs[i]? = some v → i < xs.length := fun h =>
    (List.getElem?_eq_some_iff.mp h).1
  induction l generalizing s with
  | nil => trivial
  | cons x l ih =>
    obtain ⟨w, e⟩ := x
    refine ⟨?_, ih h.2⟩
    have hfit := h.1
    cases w with
    | data v =>
      cases s with
      | none => exact ⟨hfit.1, by rw [hget (hlen hfit.2), hfit.2]⟩
      | some q => exact ⟨hfit.1, by rw [hget (hlen hfit.2), hfit.2]⟩
    | count n =>
      cases s with
      | none => trivial
      | some q =>
        obtain ⟨he, hle, hrep⟩ := hfit
        refine ⟨he, hle.trans hx.length_le, fun i h₁ h₂ => ?_⟩
        rw [hget (by omega), hget (by omega), hrep i h₁ h₂]

/-- From a known position on, the words decode to what they tile. -/
theorem decode_some {q : ℕ} {c : α} (h : Tiles xs (some q) l) (hq : 1 ≤ q)
    (hc : xs[q - 1]? = some c) : ∃ e, endOf (some q) l = some e ∧ q ≤ e ∧ e ≤ xs.length ∧
      decode (some c) (l.map Prod.fst) = span xs q e := by
  induction l generalizing q c with
  | nil =>
    obtain ⟨hlt, -⟩ := List.getElem?_eq_some_iff.mp hc
    exact ⟨q, rfl, le_rfl, by omega, by simp [decode, span]⟩
  | cons x l ih =>
    obtain ⟨w, e'⟩ := x
    obtain ⟨hfit, hrest⟩ := h
    cases w with
    | data v =>
      obtain ⟨rfl, hv⟩ := hfit
      obtain ⟨e, hend, hle, hlen, hdec⟩ := ih hrest (by omega) hv
      refine ⟨e, hend, by omega, hlen, ?_⟩
      rw [← span_append xs (Nat.le_succ q) hle, span_single xs hv]
      change v :: decode (some v) (l.map Prod.fst) = _
      rw [hdec]
      rfl
    | count n =>
      obtain ⟨he', hlen', hrep⟩ := hfit
      have hconst : ∀ i, q ≤ i → i < e' → xs[i]? = some c := fun i h₁ h₂ => by rw [hrep i h₁ h₂, hc]
      have hlast : xs[e' - 1]? = some c := by
        rcases Nat.eq_zero_or_pos n with rfl | hn
        · rwa [he', Nat.add_zero]
        · exact hconst _ (by omega) (by omega)
      obtain ⟨e, hend, hle, hlen, hdec⟩ := ih hrest (by omega) hlast
      refine ⟨e, hend, by omega, hlen, ?_⟩
      rw [← span_append xs (show q ≤ e' by omega) hle, span_const xs hlen' hconst, ← hdec, he',
        Nat.add_sub_cancel_left]
      rfl

/-- Before any data word nothing is decoded; after one, a part of the stream that
ends where the tiling ends. -/
theorem decode_none (h : Tiles xs none l) :
    (endOf none l = none ∧ decode none (l.map Prod.fst) = []) ∨
      ∃ m q, m ≤ q ∧ endOf none l = some q ∧ q ≤ xs.length ∧
        decode none (l.map Prod.fst) = span xs m q := by
  induction l with
  | nil => exact Or.inl ⟨rfl, rfl⟩
  | cons x l ih =>
    obtain ⟨w, e'⟩ := x
    obtain ⟨hfit, hrest⟩ := h
    cases w with
    | data v =>
      obtain ⟨h1, hv⟩ := hfit
      obtain ⟨e, hend, hle, hlen, hdec⟩ := decode_some hrest h1 hv
      have hsing := span_single xs hv
      rw [Nat.sub_add_cancel h1] at hsing
      refine Or.inr ⟨e' - 1, e, by omega, hend, hlen, ?_⟩
      rw [← span_append xs (Nat.sub_le e' 1) hle, hsing, ← hdec]
      rfl
    | count n => exact ih hrest

/-- A window of the words around a data word decodes to a part of the stream, and the
words before it tell how far in its element lies. -/
theorem decode_around {v : α} {e₀ : ℕ} (h : Tiles xs none (l ++ (data v, e₀) :: l')) :
    ∃ m e, m ≤ e ∧ e ≤ xs.length ∧
      decode none ((l ++ (data v, e₀) :: l').map Prod.fst) = span xs m e ∧
      m + (decode none (l.map Prod.fst)).length + 1 = e₀ ∧ e₀ ≤ e := by
  rw [tiles_append] at h
  obtain ⟨hfront, hfit, hback⟩ := h
  have hdec : decode none ((l ++ (data v, e₀) :: l').map Prod.fst) =
      decode none (l.map Prod.fst) ++ v :: decode (some v) (l'.map Prod.fst) := by
    rw [List.map_append, List.map_cons, decode_append_data]
  have hpos : 1 ≤ e₀ ∧ xs[e₀ - 1]? = some v := by
    cases hq : endOf none l with
    | none => rw [hq] at hfit; exact hfit
    | some q =>
      rw [hq] at hfit
      obtain ⟨rfl, hv⟩ := hfit
      exact ⟨by omega, hv⟩
  obtain ⟨e, -, hle, hlen, hrest⟩ := decode_some hback hpos.1 hpos.2
  have hsing := span_single xs hpos.2
  rw [Nat.sub_add_cancel hpos.1] at hsing
  have htail : v :: decode (some v) (l'.map Prod.fst) = span xs (e₀ - 1) e := by
    rw [← span_append xs (Nat.sub_le e₀ 1) hle, hsing, hrest]
    rfl
  rcases decode_none hfront with ⟨hend, hnil⟩ | ⟨m, q, hmq, hend, hql, hspan⟩
  · refine ⟨e₀ - 1, e, by omega, hlen, ?_, ?_, hle⟩
    · rw [hdec, hnil, List.nil_append, htail]
    · rw [hnil, List.length_nil]
      omega
  · rw [hend] at hfit
    obtain ⟨rfl, -⟩ := hfit
    refine ⟨m, e, by omega, hlen, ?_, ?_, hle⟩
    · rw [hdec, hspan, htail, Nat.add_sub_cancel, span_append xs hmq (by omega)]
    · rw [hspan, span_length xs hql]
      omega

/-! ### The encoder -/

section
variable [DecidableEq α] (M : ℕ)

/-- Encoding behind the element `v` with `r` repeats of it outstanding; counts go up to `M`. -/
def online : α → ℕ → List α → List (RunWord α)
  | _, r, [] => if r = 0 then [] else [count r]
  | v, r, x :: l =>
    if x = v then if r + 1 = M then count M :: online v 0 l else online v (r + 1) l
    else (if r = 0 then [] else [count r]) ++ data x :: online x 0 l

def encode : List α → List (RunWord α)
  | [] => []
  | x :: l => data x :: online M x 0 l

variable {M}

theorem online_change {v x : α} {r : ℕ} {l : List α} (h : x ≠ v) :
    online M v r (x :: l) = (if r = 0 then [] else [count r]) ++ encode M (x :: l) := by
  rw [online, if_neg h, encode]

/-- With no repeats outstanding only a repeat depends on what came before. -/
theorem online_fresh {v : α} {l : List α} (h : l.head? ≠ some v) : online M v 0 l = encode M l := by
  cases l with
  | nil => rfl
  | cons x l => exact online_change fun hx => h (congrArg some hx)

theorem decode_online {v : α} {r : ℕ} (l : List α) :
    decode (some v) (online M v r l) = List.replicate r v ++ l := by
  induction l generalizing v r with
  | nil =>
    rw [online]
    split
    · subst r
      rfl
    · rfl
  | cons x l ih =>
    rw [online]
    split
    next hx =>
      subst hx
      split
      next hM =>
        subst hM
        change List.replicate (r + 1) x ++ decode (some x) (online (r + 1) x 0 l) = _
        rw [ih, List.replicate_succ', List.append_assoc]
        rfl
      next => rw [ih, List.replicate_succ', List.append_assoc]; rfl
    next =>
      rw [decode_append]
      split
      · subst r
        exact congrArg (x :: ·) ih
      · change (List.replicate r v ++ []) ++ x :: decode (some x) (online M x 0 l) = _
        rw [ih, List.append_nil]
        rfl

theorem decode_encode (l : List α) : decode none (encode M l) = l := by
  cases l with
  | nil => rfl
  | cons x l => exact congrArg (x :: ·) (decode_online l)

end

end RunWord

end FpgaScope
