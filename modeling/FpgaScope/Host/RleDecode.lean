import FpgaScope.Lib.RunWords

/-! `rle_decode_words` of the host package, on Python integers: bit `probe_w` of a
word says count or data, and a count before any data word is skipped. -/

namespace FpgaScope.Host

/-- The loop body: `cur` and `out` after one word. -/
def decodeWord (probeW : ℕ) (s : Option ℕ × List ℕ) (w : ℕ) : Option ℕ × List ℕ :=
  let mask := (1 <<< probeW) - 1
  let isCount := (w >>> probeW) &&& 1
  let val := w &&& mask
  if isCount == 0 then (some val, s.2 ++ [val])
  else match s.1 with
    | some cur => (some cur, s.2 ++ List.replicate val cur)
    | none => (none, s.2)

def rleDecodeWords (words : List ℕ) (probeW : ℕ) : List ℕ :=
  (words.foldl (decodeWord probeW) (none, [])).2

/-- A word as data or count. -/
def classify (probeW w : ℕ) : RunWord ℕ :=
  if (w >>> probeW) &&& 1 == 0 then .data (w &&& ((1 <<< probeW) - 1))
  else .count (w &&& ((1 <<< probeW) - 1))

theorem foldl_decodeWord (probeW : ℕ) (words : List ℕ) (cur : Option ℕ) (out : List ℕ) :
    (words.foldl (decodeWord probeW) (cur, out)).2 =
      out ++ RunWord.decode cur (words.map (classify probeW)) := by
  induction words generalizing cur out with
  | nil => cases cur <;> simp [RunWord.decode]
  | cons w words ih =>
    rw [List.foldl_cons, List.map_cons, decodeWord, classify]
    by_cases hw : ((w >>> probeW) &&& 1 == 0) = true
    · simp only [hw, ↓reduceIte, ih, RunWord.decode, List.append_assoc, List.singleton_append]
    · cases cur with
      | none => simp only [hw, Bool.false_eq_true, ↓reduceIte, ih, RunWord.decode]
      | some c =>
        simp only [hw, Bool.false_eq_true, ↓reduceIte, ih, RunWord.decode, List.append_assoc]

/-- The decoder on words is the decoder on data and counts. -/
theorem rleDecodeWords_eq (words : List ℕ) (probeW : ℕ) :
    rleDecodeWords words probeW = RunWord.decode none (words.map (classify probeW)) := by
  rw [rleDecodeWords, foldl_decodeWord, List.nil_append]

end FpgaScope.Host
