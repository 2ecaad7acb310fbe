import Mathlib.Data.Nat.Bitwise
import FpgaScope.Lib.RunWords

/-! `rle_encode` and `rle_decode` of the simulation reference. The loops are on a fuel,
and what is left of the samples from index `i` stands for `i`. -/

namespace FpgaScope.Sim

/-! ### `rle_encode` -/

/-- The innermost loop: `r` and what is left. -/
def repeatLoop (maxRun v : ℕ) : ℕ → List ℕ → ℕ × List ℕ
  | r, [] => (r, [])
  | r, s :: rest =>
    if s == v && decide (r < maxRun) then repeatLoop maxRun v (r + 1) rest else (r, s :: rest)

/-- The loop over the count words of one value. -/
def countLoop (maxRun v : ℕ) : ℕ → List (ℕ × ℕ) → List ℕ → Option (List (ℕ × ℕ) × List ℕ)
  | 0, _, _ => none
  | fuel + 1, words, rest =>
    if rest.head? == some v then
      countLoop maxRun v fuel (words ++ [(1, (repeatLoop maxRun v 0 rest).1)])
        (repeatLoop maxRun v 0 rest).2
    else some (words, rest)

/-- The loop over the values. -/
def encodeLoop (maxRun : ℕ) : ℕ → List (ℕ × ℕ) → List ℕ → Option (List (ℕ × ℕ))
  | 0, _, _ => none
  | _ + 1, words, [] => some words
  | fuel + 1, words, v :: rest =>
    (countLoop maxRun v fuel (words ++ [(0, v)]) rest).bind fun s => encodeLoop maxRun fuel s.1 s.2

def rleEncode (fuel : ℕ) (samples : List ℕ) (cntW : ℕ) : Option (List (ℕ × ℕ)) :=
  encodeLoop ((1 <<< cntW) - 1) fuel [] samples

/-! ### `rle_decode` -/

/-- The loop body: `v` and `out` after one word. A count before any data word repeats `None`. -/
def decodeWord (s : Option ℕ × List (Option ℕ)) (w : ℕ × ℕ) : Option ℕ × List (Option ℕ) :=
  if w.1 == 0 then (some w.2, s.2 ++ [some w.2]) else (s.1, s.2 ++ List.replicate w.2 s.1)

def rleDecode (words : List (ℕ × ℕ)) : List (Option ℕ) := (words.foldl decodeWord (none, [])).2

/-- `{is_count<<PROBE_W | value}` of `cmd_rle`. -/
def packWord (probeW : ℕ) (w : ℕ × ℕ) : ℕ :=
  ((w.1 &&& 1) <<< probeW) ||| (w.2 &&& ((1 <<< probeW) - 1))

/-! ### What they compute -/

open RunWord

/-- The pair `(is_count, value)`. -/
def pair : RunWord ℕ → ℕ × ℕ
  | .data v => (0, v)
  | .count n => (1, n)

section
variable {maxRun v : ℕ}

theorem repeatLoop_full (rest : List ℕ) : repeatLoop maxRun v maxRun rest = (maxRun, rest) := by
  cases rest with
  | nil => rfl
  | cons s rest => rw [repeatLoop, decide_eq_false (lt_irrefl maxRun), Bool.and_false, if_neg (by simp)]

/-- The loop counts one word of repeats and leaves the rest to be encoded behind it. -/
theorem repeatLoop_online {r : ℕ} {rest : List ℕ} (hr : r < maxRun) (h : r ≠ 0 ∨ rest.head? = some v) :
    online maxRun v r rest = .count (repeatLoop maxRun v r rest).1 ::
      online maxRun v 0 (repeatLoop maxRun v r rest).2 := by
  induction rest generalizing r with
  | nil =>
    have hr0 : r ≠ 0 := by simpa using h
    rw [repeatLoop, online, online, if_neg hr0, if_pos rfl]
  | cons s rest ih =>
    by_cases hs : s = v
    · have hcond : (s == v && decide (r < maxRun)) = true := by simp [hs, hr]
      rw [repeatLoop, if_pos hcond, online, if_pos hs]
      by_cases hfull : r + 1 = maxRun
      · rw [if_pos hfull, hfull, repeatLoop_full]
      · rw [if_neg hfull, ih (by omega) (Or.inl (by omega))]
    · have hr0 : r ≠ 0 := h.resolve_right fun he => hs (Option.some.inj he)
      have hcond : ¬ (s == v && decide (r < maxRun)) = true := by simp [hs]
      rw [repeatLoop, if_neg hcond, online_change hs, online_change hs, if_neg hr0, if_pos rfl]
      rfl

theorem repeatLoop_length_le (r : ℕ) (rest : List ℕ) :
    (repeatLoop maxRun v r rest).2.length ≤ rest.length := by
  induction rest generalizing r with
  | nil => exact le_rfl
  | cons s rest ih =>
    rw [repeatLoop]
    split
    · exact (ih _).trans (Nat.le_succ _)
    · exact le_rfl

/-- Entered at a repeat, the loop consumes it. -/
theorem repeatLoop_length_lt {rest : List ℕ} (h1 : 1 ≤ maxRun) (h : rest.head? = some v) :
    (repeatLoop maxRun v 0 rest).2.length < rest.length := by
  obtain ⟨tail, rfl⟩ := List.head?_eq_some_iff.mp h
  have hcond : (v == v && decide (0 < maxRun)) = true := by simp [Nat.pos_of_ne_zero (Nat.one_le_iff_ne_zero.mp h1)]
  rw [repeatLoop, if_pos hcond, List.length_cons]
  exact Nat.lt_succ_of_le (repeatLoop_length_le 1 tail)

theorem countLoop_spec (h1 : 1 ≤ maxRun) {fuel : ℕ} (words : List (ℕ × ℕ)) (rest : List ℕ)
    (hfuel : rest.length < fuel) : ∃ l rest', countLoop maxRun v fuel words rest =
      some (words ++ l.map pair, rest') ∧
        online maxRun v 0 rest = l ++ encode maxRun rest' ∧ rest'.length ≤ rest.length := by
  induction fuel generalizing words rest with
  | zero => omega
  | succ fuel ih =>
    rw [countLoop]
    by_cases hhead : rest.head? = some v
    · have hlt := repeatLoop_length_lt h1 hhead
      obtain ⟨l, rest', hloop, honline, hle⟩ :=
        ih (words ++ [(1, (repeatLoop maxRun v 0 rest).1)]) (repeatLoop maxRun v 0 rest).2 (by omega)
      refine ⟨.count (repeatLoop maxRun v 0 rest).1 :: l, rest', ?_, ?_, by omega⟩
      · rw [if_pos (beq_iff_eq.mpr hhead), hloop, List.append_assoc]
        rfl
      · rw [repeatLoop_online h1 (Or.inr hhead), honline]
        rfl
    · refine ⟨[], rest, ?_, online_fresh hhead, le_rfl⟩
      rw [if_neg (by simpa using hhead), List.map_nil, List.append_nil]

theorem encodeLoop_spec (h1 : 1 ≤ maxRun) {fuel : ℕ} (words : List (ℕ × ℕ)) {rest : List ℕ}
    (hfuel : rest.length < fuel) :
    encodeLoop maxRun fuel words rest = some (words ++ (encode maxRun rest).map pair) := by
  induction fuel generalizing words rest with
  | zero => omega
  | succ fuel ih =>
    cases rest with
    | nil => rw [encodeLoop, encode, List.map_nil, List.append_nil]
    | cons v rest =>
      have hfuel' : rest.length < fuel := by simpa using hfuel
      obtain ⟨l, rest', hloop, honline, hle⟩ := countLoop_spec (v := v) h1 (words ++ [(0, v)]) rest hfuel'
      rw [encodeLoop, hloop, Option.bind_some, ih _ (hle.trans_lt hfuel'), encode, honline, List.map_cons,
        List.map_append, List.append_assoc, List.append_assoc]
      rfl

end

/-- Fuel beyond the number of samples is enough. -/
theorem rleEncode_eq {cntW : ℕ} (h : 1 ≤ cntW) {fuel : ℕ} {samples : List ℕ} (hfuel : samples.length < fuel) :
    rleEncode fuel samples cntW = some ((encode (2 ^ cntW - 1) samples).map pair) := by
  have h2 : 2 ≤ 2 ^ cntW := by simpa using Nat.pow_le_pow_right (n := 2) (by norm_num) h
  rw [rleEncode, Nat.one_shiftLeft, encodeLoop_spec (by omega) [] hfuel, List.nil_append]

theorem foldl_decodeWord (l : List (RunWord ℕ)) (v : ℕ) (out : List (Option ℕ)) :
    ((l.map pair).foldl decodeWord (some v, out)).2 = out ++ (decode (some v) l).map some := by
  induction l generalizing v out with
  | nil => simp [decode]
  | cons w l ih =>
    rw [List.map_cons, List.foldl_cons]
    cases w with
    | data x =>
      change ((l.map pair).foldl decodeWord (some x, out ++ [some x])).2 = _
      rw [ih, List.append_assoc]
      rfl
    | count n =>
      change ((l.map pair).foldl decodeWord (some v, out ++ List.replicate n (some v))).2 = _
      rw [ih, List.append_assoc, decode, List.map_append, List.map_replicate]

/-- Words that open with a data word are decoded as the library decodes them. -/
theorem rleDecode_data (x : ℕ) (l : List (RunWord ℕ)) :
    rleDecode ((.data x :: l).map pair) = (decode none (.data x :: l)).map some := by
  change ((l.map pair).foldl decodeWord (some x, [some x])).2 = _
  rw [foldl_decodeWord]
  rfl

theorem rleDecode_encode (maxRun : ℕ) (samples : List ℕ) :
    rleDecode ((encode maxRun samples).map pair) = samples.map some := by
  cases samples with
  | nil => rfl
  | cons x l =>
    rw [encode, rleDecode_data, ← encode, decode_encode]

end FpgaScope.Sim
