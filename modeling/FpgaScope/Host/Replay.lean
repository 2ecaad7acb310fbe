import FpgaScope.Host.Vcd

/-! What a reader gets back from a VCD file. The identifier codes are bijective numerals, so no two
variables share one; a tick writes exactly the changes that `Change.emit` logs for the values of
that tick, the trigger last; and the text splits into the lines that were written. -/

namespace FpgaScope.Host

/-! ### Identifier codes -/

theorem toNat_printable {d : ℕ} (hd : d < 94) : (Char.ofNat (33 + d)).toNat = 33 + d := by
  have hvalid : (33 + d).isValidChar := Or.inl (by omega)
  rw [Char.ofNat, dif_pos hvalid]
  rfl

theorem identLoop_eq (n : ℕ) :
    identLoop n = (Bijective.digits 94 n).map fun d => Char.ofNat (33 + d) := by
  induction n using Nat.strong_induction_on with
  | _ n ih =>
    cases n with
    | zero => rw [identLoop, Bijective.digits_zero, List.map_nil]
    | succ n =>
      rw [identLoop, Bijective.digits_succ, List.map_cons, ih _ (Nat.lt_succ_of_le (Nat.div_le_self n 94))]

theorem ident_injective : Function.Injective ident := by
  intro i j h
  have hdigits : ∀ n, (identLoop n).map (fun c => c.toNat - 33) = Bijective.digits 94 n := by
    intro n
    rw [identLoop_eq, List.map_map]
    refine (List.map_congr_left fun d hd => ?_).trans (List.map_id _)
    rw [Function.comp_apply, toNat_printable (Bijective.digits_lt (by decide) n d hd)]
    exact Nat.add_sub_cancel_left ..
  have := congrArg (List.map fun c => c.toNat - 33) h
  unfold ident at this
  rw [hdigits, hdigits] at this
  exact Nat.succ_injective (Bijective.digits_injective 94 this)

/-- A code holds neither blank nor line feed. -/
theorem ident_printable (n : ℕ) : ∀ c ∈ ident n, 33 ≤ c.toNat := by
  intro c hc
  rw [ident, identLoop_eq] at hc
  obtain ⟨d, hd, rfl⟩ := List.mem_map.mp hc
  rw [toNat_printable (Bijective.digits_lt (by decide) _ d hd)]
  exact Nat.le_add_right ..

section Codes

variable {sigs : List Signal}

theorem codes_concat (s : Signal) :
    codes (sigs ++ [s]) = Function.update (codes sigs) s.name (ident sigs.length) := by
  rw [codes, List.zipIdx_append, List.foldl_append]
  simp only [List.zipIdx_cons, List.zipIdx_nil, List.foldl_cons, List.foldl_nil, Nat.zero_add]
  rfl

/-- With distinct names, signal `i` has code `i`. -/
theorem codes_getElem (hnames : (sigs.map Signal.name).Nodup) {i : ℕ} {s : Signal}
    (hi : sigs[i]? = some s) : codes sigs s.name = ident i := by
  induction sigs using List.reverseRecOn with
  | nil => cases hi
  | append_singleton sigs s' ih =>
    rw [List.map_append, List.nodup_append] at hnames
    rw [codes_concat]
    rcases Nat.lt_or_ge i sigs.length with hlt | hge
    · rw [List.getElem?_append_left hlt] at hi
      have hne : s.name ≠ s'.name :=
        hnames.2.2 s.name (List.mem_map_of_mem (List.mem_of_getElem? hi)) s'.name List.mem_cons_self
      rw [Function.update_of_ne hne]
      exact ih hnames.1 hi
    · rw [List.getElem?_append_right hge] at hi
      obtain ⟨hlen, heq⟩ := List.getElem?_eq_some_iff.mp hi
      obtain rfl : i = sigs.length := by
        rw [List.length_singleton] at hlen
        omega
      obtain rfl : s' = s := by simpa using heq
      rw [Function.update_self]

end Codes

/-! ### Lines -/

/-- A line of the dump: no line feed in it, and not the end of the definitions. -/
def Plain (line : Text) : Prop := '\n' ∉ line ∧ line ≠ endDefinitions

theorem plain_cons {c : Char} {rest : Text} (hc : c ≠ '$') (hn : c ≠ '\n') (hrest : '\n' ∉ rest) :
    Plain (c :: rest) := by
  refine ⟨?_, fun h => hc (List.cons.inj h).1⟩
  rw [List.mem_cons, not_or]
  exact ⟨hn.symm, hrest⟩

theorem not_mem_toDigits {b n : ℕ} {c : Char} (hb : 0 < b) (hb' : b ≤ 10) (hc : c.isDigit = false) :
    c ∉ Nat.toDigits b n := by
  intro hmem
  rw [Nat.isDigit_of_mem_toDigits hb hb' hmem] at hc
  cases hc

theorem not_mem_ident {n : ℕ} {c : Char} (hc : c.toNat < 33) : c ∉ ident n := fun hmem => by
  have := ident_printable n c hmem
  omega

theorem time_plain (t : ℕ) : Plain ('#' :: Nat.toDigits 10 t) :=
  plain_cons (by decide) (by decide) (not_mem_toDigits (by decide) (by decide) (by decide))

theorem bit_cases {v : ℕ} (hv : v < 2) : v = 0 ∨ v = 1 := by omega

/-- The line of a one-bit value. -/
theorem readLine_bit (t : ℕ) {v : ℕ} (hv : v < 2) (code : Text) :
    readLine t (Nat.toDigits 10 v ++ code) = (t, [⟨t, code, v⟩]) := by
  rcases bit_cases hv with rfl | rfl <;> rfl

theorem bit_plain {v : ℕ} (hv : v < 2) (n : ℕ) : Plain (Nat.toDigits 10 v ++ ident n) := by
  rcases bit_cases hv with rfl | rfl
  · exact plain_cons (by decide) (by decide) (not_mem_ident (by decide))
  · exact plain_cons (by decide) (by decide) (not_mem_ident (by decide))

/-- The line of a wider value. -/
theorem readLine_bus (t v : ℕ) (code : Text) :
    readLine t ('b' :: Nat.toDigits 2 v ++ ' ' :: code) = (t, [⟨t, code, v⟩]) := by
  have hblank : ∀ c ∈ Nat.toDigits 2 v, decide (c ≠ ' ') = true := by
    intro c hc
    rw [decide_eq_true_eq]
    rintro rfl
    exact not_mem_toDigits (by decide) (by decide) (by decide) hc
  have htake : (Nat.toDigits 2 v ++ ' ' :: code).takeWhile (· ≠ ' ') = Nat.toDigits 2 v := by
    rw [List.takeWhile_append_of_pos hblank, List.takeWhile_cons_of_neg (by decide), List.append_nil]
  have hdrop : (Nat.toDigits 2 v ++ ' ' :: code).dropWhile (· ≠ ' ') = ' ' :: code := by
    rw [List.dropWhile_append_of_pos hblank, List.dropWhile_cons_of_neg (by decide)]
  rw [List.cons_append]
  change (t, [(⟨t, _, _⟩ : Change Text ℕ)]) = _
  rw [htake, hdrop, Nat.ofDigitChars_toDigits (by decide) (by decide)]
  rfl

theorem bus_plain (v n : ℕ) : Plain ('b' :: Nat.toDigits 2 v ++ ' ' :: ident n) := by
  rw [List.cons_append]
  refine plain_cons (by decide) (by decide) ?_
  rw [List.mem_append, List.mem_cons, not_or, not_or]
  exact ⟨not_mem_toDigits (by decide) (by decide) (by decide), by decide, not_mem_ident (by decide)⟩

section Fmt

variable {codes : String → Text} {s : Signal} {samp : ℤ} {v : ℕ}

theorem readLine_fmt (hv : s.extract samp = some v) (t : ℕ) : readLine t (fmt codes s v) = (t, [⟨t, codes s.name, v⟩]) := by
  unfold fmt
  split
  · rename_i hw
    have hlt := extract_lt_two hv hw
    rw [show v &&& 1 = v from (Nat.and_one_is_mod v).trans (Nat.mod_eq_of_lt hlt)]
    exact readLine_bit t hlt _
  · exact readLine_bus t v _

theorem fmt_plain (v : ℕ) {n : ℕ} (hcode : codes s.name = ident n) : Plain (fmt codes s v) := by
  unfold fmt
  rw [hcode]
  split
  · exact bit_plain (Nat.and_lt_two_pow (n := 1) v (by decide)) n
  · exact bus_plain v n

end Fmt

theorem readLines_plain (t : ℕ) (line : Text) (lines : List Text) {c : Change Text ℕ}
    (h : readLine t line = (t, [c])) : readLines t (line :: lines) = c :: readLines t lines := by
  rw [readLines, h]
  rfl

/-! ### Ticks -/

/-- What the reader of `lines` gets does not depend on the time before them. -/
def Timed (lines : List Text) : Prop := ∀ t t', readLines t lines = readLines t' lines

theorem time_timed (time : Text) (lines : List Text) : Timed (('#' :: time) :: lines) := fun _ _ => rfl

section Ticks

variable {sigs : List Signal} {trigPos : Option ℤ}

/-- The key of every value of a tick: the codes of the signals, and that of the trigger. -/
def keys (sigs : List Signal) : String → Text := Function.update (codes sigs) "__trig" (trigCode sigs)

/-- The values of the signals. -/
def signalRow (sigs : List Signal) (samp : ℤ) : List (String × ℕ) :=
  sigs.map fun s => (s.name, (s.extract samp).getD 0)

/-- The values of a tick. -/
def row (sigs : List Signal) (trigPos : Option ℤ) (t : ℕ) (samp : ℤ) : List (String × ℕ) :=
  signalRow sigs samp ++ [("__trig", trigNow trigPos t)]

/-- Lines for the changes `log` at time `t`. -/
structure Records (t : ℕ) (lines : List Text) (log : List (Change Text ℕ)) : Prop where
  reads : ∀ rest, readLines t (lines ++ rest) = log ++ readLines t rest
  plain : ∀ line ∈ lines, Plain line
  empty : lines = [] ↔ log = []

theorem Records.nil (t : ℕ) : Records t [] [] where
  reads _ := rfl
  plain _ h := by cases h
  empty := ⟨fun _ => rfl, fun _ => rfl⟩

theorem Records.cons {t : ℕ} {line : Text} {c : Change Text ℕ} {lines : List Text}
    {log : List (Change Text ℕ)} (h : Records t lines log) (hline : readLine t line = (t, [c]))
    (hplain : Plain line) : Records t (line :: lines) (c :: log) where
  reads rest := by rw [List.cons_append, readLines_plain t line _ hline, h.reads, List.cons_append]
  plain line' hmem := by
    rcases List.mem_cons.mp hmem with rfl | hmem
    · exact hplain
    · exact h.plain line' hmem
  empty := ⟨fun h => (List.cons_ne_nil _ _ h).elim, fun h => (List.cons_ne_nil _ _ h).elim⟩

theorem Records.append {t : ℕ} {lines lines' : List Text} {log log' : List (Change Text ℕ)}
    (h : Records t lines log) (h' : Records t lines' log') : Records t (lines ++ lines') (log ++ log') where
  reads rest := by rw [List.append_assoc, h.reads, h'.reads, List.append_assoc]
  plain line hmem := by
    rcases List.mem_append.mp hmem with hmem | hmem
    · exact h.plain line hmem
    · exact h'.plain line hmem
  empty := by rw [List.append_eq_nil_iff, List.append_eq_nil_iff, h.empty, h'.empty]

/-- The loop over the signals writes the changes of their values. -/
theorem signalChanges_emit {codes key : String → Text} {samp : ℤ} (t : ℕ)
    (hdef : ∀ s ∈ sigs, ∃ v, s.extract samp = some v) (hkey : ∀ s ∈ sigs, codes s.name = key s.name)
    (hcode : ∀ s ∈ sigs, ∃ n, codes s.name = ident n) (prev : Prev) :
    ∃ lines, signalChanges codes samp sigs prev =
        some ((Change.emit key t (signalRow sigs samp) prev).1, lines) ∧
      Records t lines (Change.emit key t (signalRow sigs samp) prev).2 := by
  induction sigs generalizing prev with
  | nil => exact ⟨[], rfl, .nil t⟩
  | cons s rest ih =>
    obtain ⟨v, hv⟩ := hdef s List.mem_cons_self
    obtain ⟨n, hn⟩ := hcode s List.mem_cons_self
    have ih := ih (fun s hs => hdef s (List.mem_cons_of_mem _ hs))
      (fun s hs => hkey s (List.mem_cons_of_mem _ hs)) (fun s hs => hcode s (List.mem_cons_of_mem _ hs))
    rw [signalRow, List.map_cons, hv, Option.getD_some, Change.emit, signalChanges, hv, Option.bind_some]
    by_cases hprev : prev s.name = some v
    · rw [if_pos hprev, if_pos hprev]
      exact ih prev
    · rw [if_neg hprev, if_neg hprev]
      obtain ⟨lines, hlines, hrec⟩ := ih (Function.update prev s.name (some v))
      rw [hlines]
      refine ⟨fmt codes s v :: lines, rfl, hrec.cons ?_ (fmt_plain v hn)⟩
      rw [readLine_fmt hv, hkey s List.mem_cons_self]

theorem trigNow_lt (trigPos : Option ℤ) (t : ℕ) : trigNow trigPos t < 2 := by
  unfold trigNow
  split <;> decide

/-- The lines of a tick are its time, perhaps the comment, and its changes. -/
theorem tickLines_eq (trigPos : Option ℤ) {t : ℕ} {changes : List Text} (h : t = 0 ∨ changes ≠ []) :
    ∃ comment, (comment = [] ∨ comment = ["$comment trigger $end".toList]) ∧
      tickLines trigPos t changes = ('#' :: Nat.toDigits 10 t) :: (comment ++ changes) := by
  rw [tickLines, if_pos h]
  refine ⟨_, ?_, List.cons_append ..⟩
  split
  · exact Or.inr rfl
  · split
    · exact Or.inr rfl
    · exact Or.inl rfl

theorem comment_plain : Plain "$comment trigger $end".toList := by
  constructor <;> decide

theorem tickLines_reads {t : ℕ} {changes : List Text} {log : List (Change Text ℕ)}
    (h : Records t changes log) {rest : List Text} (hrest : Timed rest) (t₀ : ℕ) :
    readLines t₀ (tickLines trigPos t changes ++ rest) = log ++ readLines t₀ rest := by
  by_cases hwrite : t = 0 ∨ changes ≠ []
  · obtain ⟨comment, hcomment, hlines⟩ := tickLines_eq trigPos hwrite
    have htime : ∀ lines, readLines t₀ (('#' :: Nat.toDigits 10 t) :: lines) = readLines t lines := by
      intro lines
      change readLines (Nat.ofDigitChars 10 (Nat.toDigits 10 t) 0) lines = _
      rw [Nat.ofDigitChars_ten_toDigits]
    have hskip : ∀ lines, readLines t (comment ++ lines) = readLines t lines := by
      intro lines
      rcases hcomment with rfl | rfl <;> rfl
    rw [hlines, List.cons_append, htime, List.append_assoc, hskip, h.reads, hrest t t₀]
  · have hnil : changes = [] := not_not.mp fun hne => hwrite (Or.inr hne)
    rw [tickLines, if_neg hwrite, h.empty.mp hnil]
    rfl

theorem tickLines_plain {t : ℕ} {changes : List Text} (h : ∀ line ∈ changes, Plain line) :
    ∀ line ∈ tickLines trigPos t changes, Plain line := by
  by_cases hwrite : t = 0 ∨ changes ≠ []
  · obtain ⟨comment, hcomment, hlines⟩ := tickLines_eq trigPos hwrite
    rw [hlines]
    intro line hmem
    rcases List.mem_cons.mp hmem with rfl | hmem
    · exact time_plain t
    · rcases List.mem_append.mp hmem with hmem | hmem
      · rcases hcomment with rfl | rfl
        · cases hmem
        · rw [List.mem_singleton.mp hmem]
          exact comment_plain
      · exact h line hmem
  · rw [tickLines, if_neg hwrite]
    intro line hmem
    cases hmem

theorem tickLines_timed {t : ℕ} {changes : List Text} {rest : List Text} (hrest : Timed rest) :
    Timed (tickLines trigPos t changes ++ rest) := by
  by_cases hwrite : t = 0 ∨ changes ≠ []
  · obtain ⟨comment, -, hlines⟩ := tickLines_eq trigPos hwrite
    rw [hlines]
    exact time_timed _ _
  · rw [tickLines, if_neg hwrite]
    exact hrest

/-! ### The dump -/

/-- What the list of signals must satisfy: distinct names, none of them the writer's own key, and
lanes that a sample can be shifted to. -/
structure Exportable (sigs : List Signal) : Prop where
  names : (sigs.map Signal.name).Nodup
  own : "__trig" ∉ sigs.map Signal.name
  lanes : ∀ s ∈ sigs, 0 ≤ s.lsb ∧ s.lsb ≤ s.msb

variable (hsigs : Exportable sigs)
include hsigs

theorem Exportable.defined (samp : ℤ) : ∀ s ∈ sigs, ∃ v, s.extract samp = some v :=
  fun s hs => extract_defined (hsigs.lanes s hs).1 (hsigs.lanes s hs).2

theorem Exportable.code : ∀ s ∈ sigs, ∃ n, codes sigs s.name = ident n := by
  intro s hs
  obtain ⟨i, hi⟩ := List.getElem?_of_mem hs
  exact ⟨i, codes_getElem hsigs.names hi⟩

theorem Exportable.key : ∀ s ∈ sigs, codes sigs s.name = keys sigs s.name := by
  intro s hs
  have hne : s.name ≠ "__trig" := fun heq => hsigs.own (heq ▸ List.mem_map_of_mem hs)
  rw [keys, Function.update_of_ne hne]

variable (trigPos)

/-- One tick writes the changes of its values. -/
theorem tick_emit (t : ℕ) (samp : ℤ) (prev : Prev) :
    ∃ lines, tick sigs trigPos t samp prev =
        some ((Change.emit (keys sigs) t (row sigs trigPos t samp) prev).1, lines) ∧
      (∀ line ∈ lines, Plain line) ∧ ∀ rest, Timed rest → Timed (lines ++ rest) ∧
        ∀ t₀, readLines t₀ (lines ++ rest) =
          (Change.emit (keys sigs) t (row sigs trigPos t samp) prev).2 ++ readLines t₀ rest := by
  obtain ⟨changes, hchanges, hrec⟩ :=
    signalChanges_emit t (hsigs.defined samp) hsigs.key hsigs.code prev
  have hkey : keys sigs "__trig" = trigCode sigs := Function.update_self ..
  have hlt := trigNow_lt trigPos t
  rw [tick, hchanges, Option.map_some, row, Change.emit_append, Change.emit]
  by_cases hprev : (Change.emit (keys sigs) t (signalRow sigs samp) prev).1 "__trig" =
      some (trigNow trigPos t)
  · rw [if_pos hprev, if_pos hprev]
    refine ⟨_, rfl, tickLines_plain hrec.plain, fun rest hrest => ⟨tickLines_timed hrest, fun t₀ => ?_⟩⟩
    rw [tickLines_reads hrec hrest, Change.emit, List.append_nil]
  · rw [if_neg hprev, if_neg hprev]
    have htrig : Records t [Nat.toDigits 10 (trigNow trigPos t) ++ trigCode sigs]
        [⟨t, keys sigs "__trig", trigNow trigPos t⟩] :=
      (Records.nil t).cons (by rw [readLine_bit t hlt, hkey]) (bit_plain hlt _)
    have hrec' := hrec.append htrig
    refine ⟨_, rfl, tickLines_plain hrec'.plain, fun rest hrest => ⟨tickLines_timed hrest, fun t₀ => ?_⟩⟩
    rw [tickLines_reads hrec' hrest, Change.emit]

/-- The values of successive ticks. -/
def rows (sigs : List Signal) (trigPos : Option ℤ) (t : ℕ) (samples : List ℤ) : List (List (String × ℕ)) :=
  (samples.zipIdx t).map fun x => row sigs trigPos x.2 x.1

/-- The whole loop writes the changes of all ticks. -/
theorem dump_emitAll (t : ℕ) (samples : List ℤ) (prev : Prev) :
    ∃ lines, dump sigs trigPos t samples prev = some lines ∧ (∀ line ∈ lines, Plain line) ∧
      Timed lines ∧
      ∀ t₀, readLines t₀ lines = Change.emitAll (keys sigs) t (rows sigs trigPos t samples) prev := by
  induction samples generalizing t prev with
  | nil => exact ⟨[], rfl, fun _ hmem => (List.not_mem_nil hmem).elim, fun _ _ => rfl, fun _ => rfl⟩
  | cons samp samples ih =>
    obtain ⟨lines, htick, hplain, hreads⟩ := tick_emit trigPos hsigs t samp prev
    obtain ⟨rest, hdump, hplain', htimed, hreads'⟩ :=
      ih (t + 1) (Change.emit (keys sigs) t (row sigs trigPos t samp) prev).1
    refine ⟨lines ++ rest, ?_, ?_, (hreads rest htimed).1, fun t₀ => ?_⟩
    · rw [dump, htick, Option.bind_some, hdump]
      rfl
    · intro line hmem
      rcases List.mem_append.mp hmem with hmem | hmem
      · exact hplain line hmem
      · exact hplain' line hmem
    · rw [(hreads rest htimed).2, hreads']
      rfl

end Ticks

/-! ### The text -/

theorem beq_lineFeed {line : Text} (h : '\n' ∉ line) : ∀ c ∈ line, (c == '\n') = false := by
  intro c hc
  rw [beq_eq_false_iff_ne]
  rintro rfl
  exact h hc

theorem splitOn_unlines {lines : List Text} (h : ∀ line ∈ lines, '\n' ∉ line) :
    (unlines lines).splitOn '\n' = lines ++ [[]] := by
  induction lines with
  | nil => rfl
  | cons line lines ih =>
    have hline := beq_lineFeed (h line List.mem_cons_self)
    have ih := ih fun line hmem => h line (List.mem_cons_of_mem _ hmem)
    rw [List.splitOn_eq_splitOnP] at ih ⊢
    rw [unlines, List.flatMap_cons, List.append_assoc, List.singleton_append,
      List.splitOnP_append_cons_of_forall_mem hline '\n' (by decide), ← unlines, ih, List.cons_append]

theorem takeWhile_last {α : Type*} [DecidableEq α] {e : α} {front back : List α} (h : ∀ x ∈ back, x ≠ e) :
    ((front ++ e :: back).reverse.takeWhile (· ≠ e)).reverse = back := by
  have hback : ∀ x ∈ back.reverse, decide (x ≠ e) = true :=
    fun x hx => decide_eq_true (h x (List.mem_reverse.mp hx))
  rw [List.reverse_append, List.reverse_cons, List.append_assoc, List.takeWhile_append_of_pos hback,
    List.singleton_append, List.takeWhile_cons_of_neg (by simp), List.append_nil, List.reverse_reverse]

/-- The reader finds the lines behind the definitions, whatever the definitions hold. -/
theorem dumpLines_unlines {head lines : List Text} (hhead : head ≠ []) (h : ∀ line ∈ lines, Plain line) :
    dumpLines (unlines (head ++ endDefinitions :: lines)) = lines ++ [[]] := by
  obtain ⟨front, last, rfl⟩ := (List.eq_nil_or_concat' head).resolve_left hhead
  have hend : '\n' ∉ endDefinitions := by decide
  have hsplit : (unlines (front ++ [last] ++ endDefinitions :: lines)).splitOn '\n' =
      (unlines front ++ last).splitOn '\n' ++ endDefinitions :: (lines ++ [[]]) := by
    have hlines := splitOn_unlines fun line hmem => (h line hmem).1
    rw [List.splitOn_eq_splitOnP] at hlines ⊢
    have htext : unlines (front ++ [last] ++ endDefinitions :: lines) =
        (unlines front ++ last) ++ '\n' :: (endDefinitions ++ '\n' :: unlines lines) := by
      simp [unlines]
    rw [htext, List.splitOnP_append_cons _ _ (by decide),
      List.splitOnP_append_cons_of_forall_mem (beq_lineFeed hend) '\n' (by decide), hlines]
    rfl
  rw [dumpLines, hsplit]
  apply takeWhile_last
  intro line hmem
  rcases List.mem_append.mp hmem with hmem | hmem
  · exact (h line hmem).2
  · rw [List.mem_singleton.mp hmem]
    decide

theorem readLines_append_nil (t : ℕ) (lines : List Text) : readLines t (lines ++ [[]]) = readLines t lines := by
  induction lines generalizing t with
  | nil => rfl
  | cons line lines ih => rw [List.cons_append, readLines, readLines, ih]

end FpgaScope.Host
