import FpgaScope.Host.Console
import FpgaScope.Host.Decode
import Mathlib.Data.List.DropRight

/-! `reconstruct.py`: the reader of the file of `scope_capture.tcl` and what it makes of it.
Python integers are `ℤ`; `none` stands for what Python raises. Characters are classified as
Python does it, among the digits by ASCII. -/

namespace FpgaScope.Host

open Console

/-! ### Python text -/

/-- `str.isspace` of a character. -/
def isSpace (c : Char) : Bool :=
  let n := c.toNat
  decide (9 ≤ n ∧ n ≤ 13 ∨ 0x1c ≤ n ∧ n ≤ 0x20 ∨ n = 0x85 ∨ n = 0xa0 ∨ n = 0x1680 ∨ 0x2000 ≤ n ∧ n ≤ 0x200a ∨
    n = 0x2028 ∨ n = 0x2029 ∨ n = 0x202f ∨ n = 0x205f ∨ n = 0x3000)

/-- Where `splitlines` ends a line; an empty line more or less is skipped by its reader. -/
def isBreak (c : Char) : Bool :=
  let n := c.toNat
  decide (10 ≤ n ∧ n ≤ 13 ∨ 0x1c ≤ n ∧ n ≤ 0x1e ∨ n = 0x85 ∨ n = 0x2028 ∨ n = 0x2029)

def strip (line : Text) : Text := ((line.dropWhile isSpace).reverse.dropWhile isSpace).reverse

/-- `line.split()`. -/
def words (line : Text) : List Text := (line.splitOnP isSpace).filter fun w => !w.isEmpty

/-- `str.isdigit`. -/
def isDigits (t : Text) : Bool := !t.isEmpty && t.all Char.isDigit

/-- The value of a digit to a base. -/
def digitValue (b : ℕ) (c : Char) : Option ℕ :=
  let v := if c.isDigit then c.toNat - '0'.toNat
    else if decide ('a' ≤ c ∧ c ≤ 'z') then c.toNat - 'a'.toNat + 10
    else if decide ('A' ≤ c ∧ c ≤ 'Z') then c.toNat - 'A'.toNat + 10
    else b
  if v < b then some v else none

/-- Digits in groups with single underscores between them. -/
def groupedDigits (b : ℕ) (t : Text) : Option ℕ :=
  if (t.splitOn '_').any List.isEmpty then none
  else ((t.filter (· ≠ '_')).mapM (digitValue b)).map fun ds => ds.foldl (fun v d => b * v + d) 0

/-- `int(x, 0)` without the sign. -/
def unsignedLiteral : Text → Option ℕ
  | '0' :: c :: rest =>
    if c = 'x' ∨ c = 'X' then groupedDigits 16 (if rest.head? = some '_' then rest.tail else rest)
    else if c = 'o' ∨ c = 'O' then groupedDigits 8 (if rest.head? = some '_' then rest.tail else rest)
    else if c = 'b' ∨ c = 'B' then groupedDigits 2 (if rest.head? = some '_' then rest.tail else rest)
    -- no leading zeros before anything but zero
    else (groupedDigits 10 ('0' :: c :: rest)).filter (· = 0)
  | t => groupedDigits 10 t

/-- `int(x, 0)`. -/
def literal : Text → Option ℤ
  | '-' :: t => (unsignedLiteral t).map fun n : ℕ => -(n : ℤ)
  | '+' :: t => (unsignedLiteral t).map fun n : ℕ => (n : ℤ)
  | t => (unsignedLiteral t).map fun n : ℕ => (n : ℤ)

/-! ### `read_dump` -/

/-- The dictionary `meta`. -/
abbrev Meta := Text → Option ℤ

/-- The loop over the lines. -/
def readLoop : List Text → Meta → List ℤ → Option (Meta × List ℤ)
  | [], fields, words => some (fields, words)
  | line :: lines, fields, ws =>
    let line := strip line
    if line = [] ∨ line.head? = some '#' then readLoop lines fields ws
    else match words line with
      | [key, value] =>
        if isDigits (key.dropWhile (· = '-')) then (literal key).bind fun w => readLoop lines fields (ws ++ [w])
        else (literal value).bind fun v => readLoop lines (Function.update fields key (some v)) ws
      | first :: _ => (literal first).bind fun w => readLoop lines fields (ws ++ [w])
      | [] => none

def readDump (text : Text) : Option (Meta × List ℤ) := readLoop (text.splitOnP isBreak) (fun _ => none) []

/-! ### `main` -/

def Meta.get (fields : Meta) (key : String) (default : ℤ) : ℤ := (fields key.toList).getD default

/-- The low `probe_w + 1` bits of a word, all that `rle_decode_words` looks at. -/
def wordBits (probeW : ℕ) (w : ℤ) : ℕ := (w % 2 ^ (probeW + 1)).toNat

/-- The samples and `trig_pos`. -/
def reconstruct (fields : Meta) (ws : List ℤ) : Option (List ℤ × ℤ) :=
  let probeW := fields.get "probe_w" 32
  let r := reorderWindow ws (fields.get "trig_index" 0) (fields.get "wrapped" 0 ≠ 0) (fields.get "pretrig" 0)
  if fields.get "rle" 0 ≠ 0 then
    if probeW < 0 then none
    else
      let decode (ws : List ℤ) : List ℕ := rleDecodeWords (ws.map (wordBits probeW.toNat)) probeW.toNat
      some ((decode r.1).map (fun s : ℕ => (s : ℤ)), (decode (sliceTo r.1 r.2)).length)
  else some r

/-- `--around`. -/
def focus (around : ℤ) (x : List ℤ × ℤ) : List ℤ × ℤ :=
  if 0 < around then
    let lo := max 0 (x.2 - around)
    let hi := min (x.1.length : ℤ) (x.2 + around)
    ((sliceTo x.1 hi).drop lo.toNat, x.2 - lo)
  else x

/-- What `main` hands to its writers. -/
def reconstructMain (text : Text) (around : ℤ) : Option (List ℤ × ℤ) := do
  let (fields, ws) ← readDump text
  let x ← reconstruct fields ws
  pure (focus around x)

/-! ### Numbers in text -/

theorem digit_range {c : Char} (h : c.isDigit = true) : 48 ≤ c.toNat ∧ c.toNat ≤ 57 :=
  Char.isDigit_iff_toNat.mp h

theorem mem_toDigits {n : ℕ} {c : Char} (hc : c ∈ Nat.toDigits 10 n) : c.isDigit = true :=
  Nat.isDigit_of_mem_toDigits (by decide) (by decide) hc

theorem mapM_digits {t : Text} (h : ∀ c ∈ t, c.isDigit = true) :
    t.mapM (digitValue 10) = some (t.map fun c => c.toNat - '0'.toNat) := by
  induction t with
  | nil => rfl
  | cons c t ih =>
    have hc := h c List.mem_cons_self
    have hrange := digit_range hc
    have hv : digitValue 10 c = some (c.toNat - '0'.toNat) := by
      rw [digitValue, if_pos hc, if_pos]
      change c.toNat - 48 < 10
      omega
    rw [List.mapM_cons, hv, ih fun c' hc' => h c' (List.mem_cons_of_mem _ hc')]
    rfl

theorem groupedDigits_toDigits (n : ℕ) : groupedDigits 10 (Nat.toDigits 10 n) = some n := by
  have hplain : ∀ c ∈ Nat.toDigits 10 n, c ≠ '_' := by
    rintro c hc rfl
    exact absurd (mem_toDigits hc) (by decide)
  have hsplit : (Nat.toDigits 10 n).splitOn '_' = [Nat.toDigits 10 n] := by
    rw [List.splitOn_eq_splitOnP]
    exact List.splitOnP_eq_singleton fun c hc => by simpa using hplain c hc
  have hfilter : (Nat.toDigits 10 n).filter (· ≠ '_') = Nat.toDigits 10 n :=
    List.filter_eq_self.mpr fun c hc => by simpa using hplain c hc
  have hgroup : ¬ ([Nat.toDigits 10 n].any List.isEmpty) = true := by
    simp [Nat.toDigits_ne_nil]
  rw [groupedDigits, hsplit, hfilter, mapM_digits fun c hc => mem_toDigits hc, if_neg hgroup,
    Option.map_some, List.foldl_map, ← Nat.ofDigitChars_eq_foldl, Nat.ofDigitChars_ten_toDigits]

/-- Only zero begins with a zero. -/
theorem toDigits_head {n : ℕ} {rest : Text} (h : Nat.toDigits 10 n = '0' :: rest) : n = 0 := by
  induction n using Nat.strong_induction_on generalizing rest with
  | _ n ih =>
    rw [Nat.toDigits_eq_if (by decide)] at h
    split at h
    · rename_i hlt
      have hchar : Nat.digitChar n = '0' := (List.cons.inj h).1
      interval_cases n <;> first | rfl | exact absurd hchar (by decide)
    · rename_i hge
      obtain ⟨c, t, ht⟩ := List.exists_cons_of_ne_nil (Nat.toDigits_ne_nil : Nat.toDigits 10 (n / 10) ≠ [])
      rw [ht, List.cons_append] at h
      have hzero := ih (n / 10) (by omega) (by rw [ht, (List.cons.inj h).1])
      omega

theorem unsignedLiteral_toDigits (n : ℕ) : unsignedLiteral (Nat.toDigits 10 n) = some n := by
  have hgroup := groupedDigits_toDigits n
  have hmem : ∀ c ∈ Nat.toDigits 10 n, c.isDigit = true := fun c hc => mem_toDigits hc
  unfold unsignedLiteral
  split
  · rename_i c rest heq
    have hc := hmem c (by rw [heq]; simp)
    have hother : ∀ c', c'.isDigit = false → c ≠ c' := by
      rintro c' hc' rfl
      rw [hc] at hc'
      cases hc'
    rw [if_neg, if_neg, if_neg, ← heq, hgroup, toDigits_head heq]
    · rfl
    · rw [not_or]; exact ⟨hother _ (by decide), hother _ (by decide)⟩
    · rw [not_or]; exact ⟨hother _ (by decide), hother _ (by decide)⟩
    · rw [not_or]; exact ⟨hother _ (by decide), hother _ (by decide)⟩
  · exact hgroup

theorem literal_decimal (z : ℤ) : literal (decimal z) = some z := by
  rw [decimal]
  split
  · rw [literal, unsignedLiteral_toDigits, Option.map_some, Option.some.injEq]
    omega
  · have hplain : ∀ rest, Nat.toDigits 10 z.natAbs ≠ '-' :: rest ∧ Nat.toDigits 10 z.natAbs ≠ '+' :: rest := by
      refine fun rest => ⟨fun h => ?_, fun h => ?_⟩
      · exact absurd (mem_toDigits (by rw [h]; exact List.mem_cons_self)) (show ¬ Char.isDigit '-' = true by decide)
      · exact absurd (mem_toDigits (by rw [h]; exact List.mem_cons_self)) (show ¬ Char.isDigit '+' = true by decide)
    unfold literal
    split
    · rename_i t h
      exact absurd h (hplain t).1
    · rename_i t h
      exact absurd h (hplain t).2
    · rw [unsignedLiteral_toDigits, Option.map_some, Option.some.injEq]
      omega

/-! ### Lines -/

/-- Something without blanks. -/
structure Solid (t : Text) : Prop where
  ne : t ≠ []
  solid : ∀ c ∈ t, isSpace c = false

theorem isSpace_of_break {c : Char} (h : isBreak c = true) : isSpace c = true := by
  rw [isBreak, decide_eq_true_eq] at h
  rw [isSpace, decide_eq_true_eq]
  omega

theorem solid_decimal (z : ℤ) : Solid (decimal z) := by
  have hdigits : ∀ c ∈ Nat.toDigits 10 z.natAbs, isSpace c = false := by
    intro c hc
    have hrange := digit_range (mem_toDigits hc)
    rw [isSpace, decide_eq_false_iff_not]
    omega
  rw [decimal]
  split
  · exact ⟨List.cons_ne_nil _ _, List.forall_mem_cons.mpr ⟨by decide, hdigits⟩⟩
  · exact ⟨Nat.toDigits_ne_nil, hdigits⟩

theorem strip_eq {line : Text} (hne : line ≠ []) (hfirst : isSpace (line.head hne) = false)
    (hlast : isSpace (line.getLast hne) = false) : strip line = line := by
  have hfront : line.dropWhile isSpace = line := by
    rw [List.dropWhile_eq_self_iff]
    intro hl
    rw [← List.head_eq_getElem hne, hfirst]
    decide
  rw [strip, hfront]
  exact List.rdropWhile_eq_self_iff.mpr fun _ => by rw [hlast]; decide

theorem Solid.strip {t : Text} (h : Solid t) : strip t = t :=
  strip_eq h.ne (h.solid _ (List.head_mem h.ne)) (h.solid _ (List.getLast_mem h.ne))

theorem Solid.words {t : Text} (h : Solid t) : words t = [t] := by
  rw [Host.words, List.splitOnP_eq_singleton h.solid]
  simp [h.ne]

theorem words_pair {key value : Text} (hk : Solid key) (hv : Solid value) :
    words (key ++ ' ' :: value) = [key, value] := by
  rw [Host.words, List.splitOnP_append_cons_of_forall_mem hk.solid ' ' (by decide),
    List.splitOnP_eq_singleton hv.solid]
  simp [hk.ne, hv.ne]

theorem strip_pair {key value : Text} (hk : Solid key) (hv : Solid value) :
    strip (key ++ ' ' :: value) = key ++ ' ' :: value := by
  refine strip_eq (by simp) ?_ ?_
  · rw [List.head_append_of_ne_nil hk.ne]
    exact hk.solid _ (List.head_mem hk.ne)
  · rw [List.getLast_append_of_ne_nil _ (List.cons_ne_nil _ _), List.getLast_cons hv.ne]
    exact hv.solid _ (List.getLast_mem hv.ne)

variable {lines : List Text} {fields : Meta} {ws : List ℤ}

/-- A comment line. -/
theorem readLoop_comment {line : Text} (h : (strip line).head? = some '#') :
    readLoop (line :: lines) fields ws = readLoop lines fields ws := by
  rw [readLoop, if_pos (Or.inr h)]

/-- A `key value` line. -/
theorem readLoop_field {key : String} (z : ℤ) (hk : Solid key.toList) (hhash : key.toList.head? ≠ some '#')
    (hkey : isDigits (key.toList.dropWhile (· = '-')) = false) :
    readLoop (field key z :: lines) fields ws =
      readLoop lines (Function.update fields key.toList (some z)) ws := by
  have hv := solid_decimal z
  have hline : ¬ (key.toList ++ ' ' :: decimal z = [] ∨ (key.toList ++ ' ' :: decimal z).head? = some '#') := by
    rw [List.head?_append_of_ne_nil _ hk.ne]
    simp [hhash]
  rw [field, readLoop, strip_pair hk hv]
  simp only [if_neg hline, words_pair hk hv, hkey, Bool.false_eq_true, ↓reduceIte, literal_decimal, Option.bind_some]

/-- The line of a word. -/
theorem readLoop_word (z : ℤ) : readLoop (decimal z :: lines) fields ws = readLoop lines fields (ws ++ [z]) := by
  have hv := solid_decimal z
  have hhash : (decimal z).head? ≠ some '#' := by
    intro h
    have hmem := List.mem_of_mem_head? h
    rw [decimal] at hmem
    split at hmem
    · rcases List.mem_cons.mp hmem with h | h
      · exact absurd h (by decide)
      · exact absurd (mem_toDigits h) (by decide)
    · exact absurd (mem_toDigits hmem) (by decide)
  rw [readLoop, hv.strip]
  simp only [if_neg (not_or.mpr ⟨hv.ne, hhash⟩), hv.words, literal_decimal, Option.bind_some]

theorem readLoop_words (xs : List ℕ) : readLoop (xs.map (fun x : ℕ => decimal x) ++ lines) fields ws =
    readLoop lines fields (ws ++ xs.map (fun x : ℕ => (x : ℤ))) := by
  induction xs generalizing ws with
  | nil => rw [List.map_nil, List.map_nil, List.append_nil, List.nil_append]
  | cons x xs ih =>
    rw [List.map_cons, List.cons_append, readLoop_word, ih, List.map_cons, List.append_assoc,
      List.singleton_append]

theorem splitOnP_unlines {lines : List Text} (h : ∀ line ∈ lines, ∀ c ∈ line, isBreak c = false) :
    (unlines lines).splitOnP isBreak = lines ++ [[]] := by
  induction lines with
  | nil => rfl
  | cons line lines ih =>
    rw [unlines, List.flatMap_cons, List.append_assoc, List.singleton_append,
      List.splitOnP_append_cons_of_forall_mem (h line List.mem_cons_self) '\n' (by decide), ← unlines,
      ih fun line hmem => h line (List.mem_cons_of_mem _ hmem), List.cons_append]

/-! ### The file of the script -/

theorem Solid.unbroken {t : Text} (h : Solid t) : ∀ c ∈ t, isBreak c = false := by
  intro c hc
  by_contra hbreak
  have hspace := isSpace_of_break (by simpa using hbreak)
  rw [h.solid c hc] at hspace
  cases hspace

theorem field_unbroken {key : String} (hk : Solid key.toList) (z : ℤ) : ∀ c ∈ field key z, isBreak c = false := by
  intro c hc
  rcases List.mem_append.mp hc with hc | hc
  · exact hk.unbroken c hc
  · rcases List.mem_cons.mp hc with rfl | hc
    · decide
    · exact (solid_decimal z).unbroken c hc

/-- The dictionary of a file. -/
def metaOf (h : Header) : Meta :=
  [("probe_w", 32), ("store_w", 33), ("rle", (h.rle : ℤ)), ("wrapped", (h.wrapped : ℤ)),
    ("trig_index", (h.trigIndex : ℤ)), ("pretrig", h.pretrig), ("depth", (h.depth : ℤ)),
    ("ts_at_trig", (h.tsAtTrig : ℤ))].foldl (fun m kv => Function.update m kv.1.toList (some kv.2)) fun _ => none

theorem solid_of (key : String) (h : key.toList ≠ [] ∧ (key.toList.all fun c => !isSpace c) = true) :
    Solid key.toList :=
  ⟨h.1, by simpa using h.2⟩

theorem unbroken_of (line : String) (h : (line.toList.all fun c => !isBreak c) = true) :
    ∀ c ∈ line.toList, isBreak c = false := by simpa using h

/-- What is written is read back. -/
theorem readDump_dumpText (h : Header) (xs : List ℕ) :
    readDump (dumpText h xs) = some (metaOf h, xs.map fun x : ℕ => (x : ℤ)) := by
  have hprobe := solid_of "probe_w" (by decide)
  have hstore := solid_of "store_w" (by decide)
  have hrle := solid_of "rle" (by decide)
  have hwrapped := solid_of "wrapped" (by decide)
  have htrig := solid_of "trig_index" (by decide)
  have hpretrig := solid_of "pretrig" (by decide)
  have hdepth := solid_of "depth" (by decide)
  have hts := solid_of "ts_at_trig" (by decide)
  have hend : readLoop [[]] (metaOf h) ([] ++ xs.map fun x : ℕ => (x : ℤ)) =
      some (metaOf h, xs.map fun x : ℕ => (x : ℤ)) := rfl
  rw [readDump, dumpText, splitOnP_unlines, List.append_assoc]
  · simp only [List.cons_append, List.nil_append]
    rw [readLoop_comment (by decide), readLoop_field _ hprobe (by decide) (by decide),
      readLoop_field _ hstore (by decide) (by decide), readLoop_field _ hrle (by decide) (by decide),
      readLoop_field _ hwrapped (by decide) (by decide), readLoop_field _ htrig (by decide) (by decide),
      readLoop_field _ hpretrig (by decide) (by decide), readLoop_field _ hdepth (by decide) (by decide),
      readLoop_field _ hts (by decide) (by decide), readLoop_comment (by decide), readLoop_words]
    exact hend
  · intro line hline
    rcases List.mem_append.mp hline with hline | hline
    · simp only [List.mem_cons, List.not_mem_nil, or_false] at hline
      rcases hline with rfl | rfl | rfl | rfl | rfl | rfl | rfl | rfl | rfl | rfl
      · exact unbroken_of _ (by decide)
      · exact field_unbroken hprobe _
      · exact field_unbroken hstore _
      · exact field_unbroken hrle _
      · exact field_unbroken hwrapped _
      · exact field_unbroken htrig _
      · exact field_unbroken hpretrig _
      · exact field_unbroken hdepth _
      · exact field_unbroken hts _
      · exact unbroken_of _ (by decide)
    · obtain ⟨x, -, rfl⟩ := List.mem_map.mp hline
      exact (solid_decimal _).unbroken

/-! ### What `main` makes of it -/

theorem classify_mod (probeW w : ℕ) : classify probeW (w % 2 ^ (probeW + 1)) = classify probeW w := by
  have hbit : (w % 2 ^ (probeW + 1)) >>> probeW &&& 1 = w >>> probeW &&& 1 := by
    rw [Nat.shiftRight_eq_div_pow, Nat.shiftRight_eq_div_pow, Nat.and_one_is_mod, Nat.and_one_is_mod, pow_succ,
      Nat.mod_mul_right_div_self, Nat.mod_mod]
  have hval : (w % 2 ^ (probeW + 1)) &&& ((1 <<< probeW) - 1) = w &&& ((1 <<< probeW) - 1) := by
    rw [Nat.one_shiftLeft, Nat.and_two_pow_sub_one_eq_mod, Nat.and_two_pow_sub_one_eq_mod,
      Nat.mod_mod_of_dvd _ (pow_dvd_pow 2 (Nat.le_succ probeW))]
  rw [classify, classify, hbit, hval]

theorem rleDecodeWords_bits (probeW : ℕ) (xs : List ℕ) :
    rleDecodeWords ((xs.map fun x : ℕ => (x : ℤ)).map (wordBits probeW)) probeW = rleDecodeWords xs probeW := by
  rw [rleDecodeWords_eq, rleDecodeWords_eq, List.map_map, List.map_map]
  congr 1
  refine List.map_congr_left fun x _ => ?_
  have hbits : wordBits probeW (x : ℤ) = x % 2 ^ (probeW + 1) := by
    rw [wordBits]
    exact_mod_cast Int.toNat_natCast _
  rw [Function.comp_apply, Function.comp_apply, hbits, classify_mod]

theorem sliceTo_map {α β : Type*} (f : α → β) (xs : List α) (stop : ℤ) :
    sliceTo (xs.map f) stop = (sliceTo xs stop).map f := by
  rw [sliceTo, sliceTo, List.length_map, List.map_take]

/-- The file of a compressed buffer gives the samples that a `DRAIN` gives. -/
theorem reconstructMain_dumpText (h : Header) (hrle : h.rle = 1) {wrapped : Bool} (hwrapped : h.wrapped = wrapped.toNat)
    (xs : List ℕ) (around : ℤ) : reconstructMain (dumpText h xs) around =
      let r := timeOrder true xs h.trigIndex wrapped h.pretrig 32
      some (focus around (r.1.map fun s : ℕ => (s : ℤ), r.2)) := by
  have hfields : (metaOf h).get "probe_w" 32 = 32 ∧ (metaOf h).get "rle" 0 = h.rle ∧
      (metaOf h).get "wrapped" 0 = h.wrapped ∧ (metaOf h).get "trig_index" 0 = h.trigIndex ∧
      (metaOf h).get "pretrig" 0 = h.pretrig := by
    simp [metaOf, Meta.get, Function.update]
  obtain ⟨hprobe, hr, hw, ht, hp⟩ := hfields
  have hrec : reconstruct (metaOf h) (xs.map fun x : ℕ => (x : ℤ)) =
      some ((timeOrder true xs h.trigIndex wrapped h.pretrig 32).1.map fun s : ℕ => (s : ℤ),
        (timeOrder true xs h.trigIndex wrapped h.pretrig 32).2) := by
    have hnat : (32 : ℤ).toNat = 32 := rfl
    have hflag : decide ((h.wrapped : ℤ) ≠ 0) = wrapped := by
      rw [hwrapped]
      cases wrapped <;> rfl
    simp only [reconstruct, hprobe, hr, hw, ht, hp, hrle, reorderWindow_map, timeOrder, hnat, hflag, ↓reduceIte]
    rw [if_pos (by decide), if_neg (by decide), sliceTo_map, rleDecodeWords_bits, rleDecodeWords_bits]
  rw [reconstructMain, readDump_dumpText]
  change (reconstruct (metaOf h) (xs.map fun x : ℕ => (x : ℤ))).bind _ = _
  rw [hrec]
  rfl

/-- `--around` cuts a stretch around the trigger out of the samples. -/
theorem focus_stretch (around : ℤ) (xs : List ℤ) {pos : ℕ} (h : pos < xs.length) : ∃ lo ys, lo ≤ pos ∧
    focus around (xs, (pos : ℤ)) = (ys, ((pos - lo : ℕ) : ℤ)) ∧ pos - lo < ys.length ∧
      ∀ i < ys.length, ys[i]? = xs[lo + i]? := by
  by_cases hpos : 0 < around
  · obtain ⟨r, rfl⟩ : ∃ r : ℕ, around = r := ⟨around.toNat, by omega⟩
    have hhi : sliceTo xs (min (xs.length : ℤ) (pos + r)) = xs.take (min xs.length (pos + r)) := by
      rw [sliceTo, if_neg (by omega)]
      congr 1
      omega
    refine ⟨pos - r, (xs.take (min xs.length (pos + r))).drop (pos - r), by omega, ?_, ?_, fun i hi => ?_⟩
    · simp only [focus, if_pos hpos, hhi]
      have hlo : (max 0 ((pos : ℤ) - r)).toNat = pos - r := by omega
      rw [hlo, Prod.mk.injEq]
      exact ⟨rfl, by omega⟩
    · rw [List.length_drop, List.length_take]
      omega
    · rw [List.length_drop, List.length_take] at hi
      rw [List.getElem?_drop, List.getElem?_take_of_lt (by omega)]
  · refine ⟨0, xs, Nat.zero_le _, ?_, h, fun i _ => by rw [Nat.zero_add]⟩
    rw [focus, if_neg hpos, Nat.sub_zero]

end FpgaScope.Host
