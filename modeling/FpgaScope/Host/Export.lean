import FpgaScope.Host.Replay

/-! `write_vcd` on the list of `load_probes`: what a reader of the file finds at every tick. -/

namespace FpgaScope.Host

section Replay

variable {sigs : List Signal} {trigPos : Option ℤ} (hsigs : Exportable sigs)

/-- The names of a row. -/
def rowNames (sigs : List Signal) : List String := sigs.map Signal.name ++ ["__trig"]

theorem row_names (sigs : List Signal) (trigPos : Option ℤ) (t : ℕ) (samp : ℤ) :
    (row sigs trigPos t samp).map Prod.fst = rowNames sigs := by
  rw [row, signalRow, List.map_append, List.map_map]
  rfl

include hsigs

theorem rowNames_nodup : (rowNames sigs).Nodup := by
  rw [rowNames, List.nodup_append]
  refine ⟨hsigs.names, List.nodup_singleton _, fun a ha b hb => ?_⟩
  rw [List.mem_singleton.mp hb]
  rintro rfl
  exact hsigs.own ha

/-- The key of the name at position `i` is code `i`. -/
theorem keys_getElem {i : ℕ} {name : String} (hi : (rowNames sigs)[i]? = some name) :
    keys sigs name = ident i := by
  rcases Nat.lt_or_ge i sigs.length with hlt | hge
  · rw [rowNames, List.getElem?_append_left (by rwa [List.length_map]), List.getElem?_map] at hi
    obtain ⟨s, hs, rfl⟩ := Option.map_eq_some_iff.mp hi
    rw [← hsigs.key s (List.mem_of_getElem? hs), codes_getElem hsigs.names hs]
  · rw [rowNames, List.getElem?_append_right (by rwa [List.length_map]), List.length_map] at hi
    obtain ⟨hlen, heq⟩ := List.getElem?_eq_some_iff.mp hi
    obtain rfl : i = sigs.length := by
      rw [List.length_singleton] at hlen
      omega
    obtain rfl : "__trig" = name := by simpa using heq
    exact Function.update_self ..

theorem keys_injOn : Set.InjOn (keys sigs) {name | name ∈ rowNames sigs} := by
  intro a ha b hb h
  obtain ⟨i, hi⟩ := List.getElem?_of_mem ha
  obtain ⟨j, hj⟩ := List.getElem?_of_mem hb
  rw [keys_getElem hsigs hi, keys_getElem hsigs hj] at h
  rw [ident_injective h, hj] at hi
  exact (Option.some.inj hi).symm

/-- The file replays every value of every tick. -/
theorem replay_row {samples : List ℤ} {lines head : List Text} (hhead : head ≠ [])
    (hdump : dump sigs trigPos 0 samples (fun _ => none) = some lines) {t : ℕ} {samp : ℤ}
    (ht : samples[t]? = some samp) {name : String} {v : ℕ} (hv : (name, v) ∈ row sigs trigPos t samp) :
    replay (unlines (head ++ endDefinitions :: lines)) (keys sigs name) t = some v := by
  obtain ⟨lines', hdump', hplain, -, hreads⟩ :=
    dump_emitAll trigPos hsigs 0 samples (fun _ => none)
  obtain rfl : lines' = lines := Option.some.inj (hdump'.symm.trans hdump)
  have hrow : (rows sigs trigPos 0 samples)[t]? = some (row sigs trigPos t samp) := by
    rw [rows, List.getElem?_map, List.getElem?_zipIdx, ht, Option.map_some, Option.map_some, Nat.zero_add]
  have hmem : ∀ r ∈ rows sigs trigPos 0 samples, r.map Prod.fst = rowNames sigs := by
    intro r hr
    obtain ⟨x, -, rfl⟩ := List.mem_map.mp hr
    exact row_names ..
  have hlog : ∀ c ∈ ([] : List (Change Text ℕ)), c.time ≤ 0 := fun c hc => (List.not_mem_nil hc).elim
  have hstart : Change.Remembered (keys sigs) {name | name ∈ rowNames sigs}
      (fun _ => (none : Option ℕ)) [] := fun _ _ => rfl
  have hvalue := Change.valueAt_emitAll (keys_injOn hsigs)
    (fun r hr nv hnv => show nv.1 ∈ rowNames sigs from hmem r hr ▸ List.mem_map_of_mem hnv)
    (fun r hr => (hmem r hr).symm ▸ rowNames_nodup hsigs) hlog hstart hrow hv
  rw [replay, dumpLines_unlines hhead hplain, readLines_append_nil, hreads]
  rwa [Nat.zero_add] at hvalue

theorem replay_signal {samples : List ℤ} {lines head : List Text} (hhead : head ≠ [])
    (hdump : dump sigs trigPos 0 samples (fun _ => none) = some lines) {t : ℕ} {samp : ℤ}
    (ht : samples[t]? = some samp) {s : Signal} (hs : s ∈ sigs) :
    replay (unlines (head ++ endDefinitions :: lines)) (codes sigs s.name) t = s.extract samp := by
  obtain ⟨v, hv⟩ := hsigs.defined samp s hs
  rw [hsigs.key s hs, hv]
  refine replay_row hsigs hhead hdump ht (List.mem_append_left _ (List.mem_map.mpr ⟨s, hs, ?_⟩))
  rw [hv, Option.getD_some]

theorem replay_trigger {samples : List ℤ} {lines head : List Text} (hhead : head ≠ [])
    (hdump : dump sigs trigPos 0 samples (fun _ => none) = some lines) {t : ℕ} {samp : ℤ}
    (ht : samples[t]? = some samp) :
    replay (unlines (head ++ endDefinitions :: lines)) (trigCode sigs) t = some (trigNow trigPos t) := by
  have htrig : keys sigs "__trig" = trigCode sigs := Function.update_self ..
  rw [← htrig]
  exact replay_row hsigs hhead hdump ht (List.mem_append_right _ List.mem_cons_self)

end Replay

/-- The bits of a sample come back from the signals that cover them. -/
theorem recoverBit_eq {sigs : List Signal} (hsigs : Exportable sigs) {text : Text} {t : ℕ} {samp : ℤ}
    (hreplay : ∀ s ∈ sigs, replay text (codes sigs s.name) t = s.extract samp) {k : ℕ}
    (hcov : ∃ s ∈ sigs, s.Covers k) : recoverBit sigs text t k = some (samp.testBit k) := by
  obtain ⟨s₀, hs₀, hcov₀⟩ := hcov
  cases hfind : sigs.find? (fun s => s.Covers k) with
  | none => exact absurd (decide_eq_true hcov₀) (List.find?_eq_none.mp hfind s₀ hs₀)
  | some s =>
    have hs := List.mem_of_find?_eq_some hfind
    obtain ⟨hlow, hhigh⟩ : s.Covers k := by simpa using List.find?_some hfind
    obtain ⟨v, hv⟩ := hsigs.defined samp s hs
    have hlane := (hsigs.lanes s hs).1
    rw [recoverBit, hfind, Option.bind_some, hreplay s hs, hv, Option.map_some, extract_testBit hv,
      show s.lsb.toNat + (k - s.lsb.toNat) = k by omega,
      decide_eq_true (by unfold Signal.width; omega), Bool.and_true]

theorem infix_unlines {lines : List Text} {line : Text} (h : line ∈ lines) :
    line ++ ['\n'] <:+: unlines lines := by
  obtain ⟨front, back, rfl⟩ := List.append_of_mem h
  refine ⟨unlines front, unlines back, ?_⟩
  rw [unlines, unlines, unlines, List.flatMap_append, List.flatMap_cons, List.append_assoc]

/-- What a reader of the file finds: the variables, the value of each signal and of the trigger at
every tick, and every probe bit of every sample. -/
structure Faithful (sigs : List Signal) (probeW : ℤ) (samples : List ℤ) (trigPos : Option ℤ)
    (text : Text) : Prop where
  declared : ∀ s ∈ sigs, varLine (codes sigs) s ++ ['\n'] <:+: text
  signal : ∀ t samp, samples[t]? = some samp → ∀ s ∈ sigs,
    replay text (codes sigs s.name) t = s.extract samp
  trigger : ∀ t < samples.length,
    replay text (trigCode sigs) t = some (if trigPos = some (t : ℤ) then 1 else 0)
  bits : ∀ t samp, samples[t]? = some samp → ∀ k : ℕ, (k : ℤ) < probeW →
    recoverBit sigs text t k = some (samp.testBit k)

/-- `write_vcd` is faithful on a list that `load_probes` returns, unless the list is empty or names
a negative bit. -/
theorem vcd_faithful (mapping : Mapping) (probeW : ℤ) (samples : List ℤ) (timescale date : String)
    (trigPos : Option ℤ) (hne : loadProbes mapping probeW ≠ [])
    (hnames : ((loadProbes mapping probeW).map Signal.name).Nodup)
    (hown : "__trig" ∉ (loadProbes mapping probeW).map Signal.name)
    (hlanes : ∀ s ∈ loadProbes mapping probeW, 0 ≤ s.lsb) :
    ∃ text, writeVcd samples probeW (.signals (loadProbes mapping probeW)) timescale trigPos date = some text ∧
      Faithful (loadProbes mapping probeW) probeW samples trigPos text := by
  have hsigs : Exportable (loadProbes mapping probeW) :=
    ⟨hnames, hown, fun s hs => ⟨hlanes s hs, loadProbes_ordered hs⟩⟩
  obtain ⟨lines, hdump, -⟩ := dump_emitAll trigPos hsigs 0 samples fun _ => none
  have hresolve : resolveProbes (.signals (loadProbes mapping probeW)) probeW =
      some (loadProbes mapping probeW) := by
    obtain ⟨s, sigs, heq⟩ := List.exists_cons_of_ne_nil hne
    rw [heq]
    rfl
  have hhead : header (loadProbes mapping probeW) timescale date ≠ [] := List.cons_ne_nil _ _
  refine ⟨unlines (header (loadProbes mapping probeW) timescale date ++ endDefinitions :: lines), ?_, ?_⟩
  · rw [writeVcd, hresolve, Option.bind_some, hdump, Option.map_some]
  · have hsignal := fun t samp (ht : samples[t]? = some samp) s hs =>
      replay_signal (s := s) hsigs hhead hdump ht hs
    refine ⟨fun s hs => ?_, hsignal, fun t ht => ?_, fun t samp ht k hk => ?_⟩
    · refine infix_unlines (List.mem_append_left _ ?_)
      exact List.mem_append_left _ (List.mem_append_right _ (List.mem_map_of_mem hs))
    · exact replay_trigger hsigs hhead hdump (List.getElem?_eq_getElem ht)
    · exact recoverBit_eq hsigs (hsignal t samp ht) (loadProbes_covers hk)

/-- A swapped range and an unmapped bit, with the trigger in the middle. -/
theorem swapped_faithful :
    ∃ text, writeVcd [5, 5, 10] 4 (.signals (loadProbes [("bus", 0, 2)] 4)) "1ns" (some 1) = some text ∧
      Faithful (loadProbes [("bus", 0, 2)] 4) 4 [5, 5, 10] (some 1) text :=
  vcd_faithful [("bus", 0, 2)] 4 [5, 5, 10] "1ns" "fpga-scope" (some 1) (by decide) (by decide) (by decide)
    (by decide)

/-- No file without probe bits, and none for a group with a negative bit. -/
theorem vcd_refused :
    (¬ ∃ text, writeVcd [0] 0 (.signals (loadProbes [] 0)) "1ns" (some 0) = some text) ∧
    ¬ ∃ text, writeVcd [0] 1 (.signals (loadProbes [("x", 0, -1)] 1)) "1ns" (some 0) = some text := by
  constructor
  · rintro ⟨text, h⟩
    cases h
  · rintro ⟨text, h⟩
    cases h

end FpgaScope.Host
