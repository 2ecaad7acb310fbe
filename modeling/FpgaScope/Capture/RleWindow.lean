import FpgaScope.Capture.Accept
import FpgaScope.Capture.Tiling

/-! Windows under the encoder, seen from the host. The words the core stores are the
words the encoder produces, at most one of them late; during a window the encoder
stays in one mode, so the words tile the sample stream, and the tagged one is the data
word of the trigger sample. Reordering and decoding a completed window therefore give
back a contiguous part of the sample stream. -/

namespace FpgaScope.Capture

open Clocked Host RunWord
open Rle (produced emitted pending tok sampleOf)

variable {p : Params}

/-- The encoder's input in cycle `n`. -/
def rleAt (c₀ : Capture p) (inp : ℕ → CaptureIn p) (n : ℕ) : RleIn p.probeW :=
  (run c₀ inp n).rleIn (inp n)

/-- The samples presented to the encoder before cycle `n`. -/
def raw (c₀ : Capture p) (inp : ℕ → CaptureIn p) : ℕ → List ℕ :=
  collect fun k => sampleOf (rleAt c₀ inp k)

/-- The words produced before cycle `n`, each with the number of samples it reaches up to. -/
def words (c₀ : Capture p) (inp : ℕ → CaptureIn p) : ℕ → List (BitVec (p.probeW + 1) × ℕ)
  | 0 => []
  | n + 1 => words c₀ inp n ++ (run c₀ inp n).rle.produced (rleAt c₀ inp n) (raw c₀ inp n).length

variable {c₀ : Capture p} {inp : ℕ → CaptureIn p}

theorem rle_succ (n : ℕ) :
    (run c₀ inp (n + 1)).rle = (run c₀ inp n).rle.step (rleAt c₀ inp n) := rfl

theorem bounded_run (c₀ : Capture p) (inp : ℕ → CaptureIn p) (n : ℕ) :
    (run c₀ inp n).rle.Bounded := by
  have hL := (depthLog2_bounds p).1
  exact invariant_of_step (fun n => (run c₀ inp n).rle.Bounded) (Rle.Bounded.reset hL)
    (fun n h => h.step hL (rleAt c₀ inp n) rfl) n

/-! ### What the core stores -/

/-- The words the core is presented, as numbers. -/
def storedWords (c₀ : Capture p) (inp : ℕ → CaptureIn p) (n : ℕ) : List ℕ :=
  (Core.presented (coreInp c₀ inp) n).map BitVec.toNat

theorem storedWords_succ (hr : p.rleEn = true) (c₀ : Capture p) (inp : ℕ → CaptureIn p) (n : ℕ) :
    storedWords c₀ inp (n + 1) = storedWords c₀ inp n ++
      (((run c₀ inp n).rle.emitted (rleAt c₀ inp n)).toList.map BitVec.toNat) := by
  have hw : p.storeW = p.probeW + 1 := by rw [Params.storeW, if_pos hr]
  have hvalid : (coreInp c₀ inp n).sampleValid =
      (run c₀ inp n).rle.wordValid (rleAt c₀ inp n) := by
    change (run c₀ inp n).sampleValid (inp n) = _
    rw [sampleValid, if_pos hr]
    rfl
  have hdata : (coreInp c₀ inp n).sampleData.toNat =
      ((run c₀ inp n).rle.word (rleAt c₀ inp n)).toNat := by
    change ((run c₀ inp n).sampleData (inp n)).toNat = _
    rw [sampleData, if_pos hr, BitVec.toNat_setWidth, hw]
    exact Nat.mod_eq_of_lt (BitVec.isLt _)
  unfold storedWords emitted
  cases hv : (run c₀ inp n).rle.wordValid (rleAt c₀ inp n) with
  | true =>
    rw [Core.presented_valid (hvalid.trans hv), List.map_append, List.map_singleton, hdata]
    rfl
  | false =>
    rw [Core.presented_gap (hvalid.trans hv)]
    simp

/-- The core is presented the words produced, but for the one in the skid. -/
theorem storedWords_pending (hr : p.rleEn = true) (c₀ : Capture p) (inp : ℕ → CaptureIn p) (n : ℕ) :
    storedWords c₀ inp n ++ (run c₀ inp n).rle.pending.map BitVec.toNat =
      (words c₀ inp n).map fun x => x.1.toNat := by
  induction n with
  | zero => rfl
  | succ n ih =>
    have hstep := congrArg (List.map BitVec.toNat)
      (Rle.emitted_step (quiet_run c₀ inp n) (i := rleAt c₀ inp n) rfl (raw c₀ inp n).length)
    rw [List.map_append, List.map_append, List.map_map] at hstep
    rw [storedWords_succ hr c₀ inp, rle_succ, List.append_assoc, ← hstep, ← List.append_assoc, ih, words,
      List.map_append]
    rfl

theorem words_length (hr : p.rleEn = true) (c₀ : Capture p) (inp : ℕ → CaptureIn p) (n : ℕ) :
    (words c₀ inp n).length =
    (Core.presented (coreInp c₀ inp) n).length + (run c₀ inp n).rle.pending.length := by
  have h := congrArg List.length (storedWords_pending hr c₀ inp n)
  simpa [storedWords] using h.symm

/-- A word produced before cycle `n` is stored by the end of it. -/
theorem words_length_le (hr : p.rleEn = true) (c₀ : Capture p) (inp : ℕ → CaptureIn p) (n : ℕ) :
    (words c₀ inp n).length ≤ (Core.presented (coreInp c₀ inp) (n + 1)).length := by
  have hstored := congrArg List.length (storedWords_succ hr c₀ inp n)
  simp only [storedWords, List.length_append, List.length_map] at hstored
  rw [words_length hr c₀ inp, hstored]
  unfold pending emitted Rle.wordValid
  cases (run c₀ inp n).rle.pendValid <;> simp

/-- Any stretch of the stored words is that stretch of the words produced. -/
theorem storedWords_stretch (hr : p.rleEn = true) {k s n : ℕ}
    (h : k + s ≤ (Core.presented (coreInp c₀ inp) n).length) :
    ((storedWords c₀ inp n).drop k).take s =
      (((words c₀ inp n).drop k).take s).map fun x => x.1.toNat := by
  have hlen : (storedWords c₀ inp n).length = (Core.presented (coreInp c₀ inp) n).length :=
    List.length_map ..
  rw [List.map_take, List.map_drop, ← storedWords_pending hr c₀ inp, List.drop_append_of_le_length,
    List.take_append_of_le_length]
  · rw [List.length_drop]
    omega
  · omega

/-! ### One mode during a window -/

/-- An arm does not write the configuration. -/
theorem rleEnable_of_arm {n : ℕ} (h : (inp n).bus.arm = true) :
    (run c₀ inp (n + 1)).csr.rleEnableQ = (run c₀ inp n).csr.rleEnableQ := by
  simp only [CsrBus.arm, CsrBus.wrCtrl, Bool.and_eq_true, beq_iff_eq] at h
  have haddr : (inp n).bus.addr = csrCtrl := h.1.2
  simp only [run_succ, step, Csr.step]
  split
  · rw [Csr.writeCfg, haddr]
    rfl
  · rfl

/-- The only way out of `IDLE` is an arm. -/
theorem arm_of_idle {n : ℕ} (h : stAt c₀ inp n = .idle) (h' : stAt c₀ inp (n + 1) ≠ .idle) :
    (inp n).bus.arm = true := by
  have hm := move_at c₀ inp n
  unfold stAt at h h'
  generalize (run c₀ inp (n + 1)).core = c' at hm h'
  cases hm with
  | abort => exact absurd rfl h'
  | rest => exact absurd h h'
  | start ha =>
    simp only [Core.armAccept, Bool.and_eq_true] at ha
    exact ha.1.1
  | fill _ hs _ | backlog _ hs _ | circulate _ hs _ | trigger _ hs _ | post _ hs _
  | complete _ hs _ | rearm _ hs _ _ | park _ hs _ _ => exact absurd (h.symm.trans hs) (by decide)

/-- From the cycle before a window on, the encoder stays in one mode. -/
theorem rleEnable_window {g n v : ℕ} (hw : ∀ v, g < v → v ≤ n → stAt c₀ inp v ≠ .idle)
    (h₁ : g ≤ v) (h₂ : v ≤ n) :
    (run c₀ inp v).csr.rleEnableQ = (run c₀ inp g).csr.rleEnableQ := by
  induction v, h₁ using Nat.le_induction with
  | base => rfl
  | succ v hv ih =>
    rw [← ih (by omega)]
    by_cases hidle : stAt c₀ inp v = .idle
    · exact rleEnable_of_arm (arm_of_idle hidle (hw (v + 1) (by omega) h₂))
    · exact (config_succ hidle).2.2.1

/-- The words produced from cycle `g` on tile the sample stream as long as the encoder
stays in one mode. -/
theorem tiles_from (hW : p.depthLog2 ≤ p.probeW) (c₀ : Capture p) (inp : ℕ → CaptureIn p)
    {g n : ℕ} (hg : g ≤ n)
    (hmode : ∀ v, g ≤ v → v < n →
      (run c₀ inp v).csr.rleEnableQ = (run c₀ inp g).csr.rleEnableQ) :
    (words c₀ inp g).length ≤ (words c₀ inp n).length ∧
    Tiles (raw c₀ inp n) none (((words c₀ inp n).drop (words c₀ inp g).length).map tok) ∧
      (run c₀ inp n).rle.Tracks (run c₀ inp g).csr.rleEnableQ (raw c₀ inp n)
        (endOf none (((words c₀ inp n).drop (words c₀ inp g).length).map tok)) := by
  induction n, hg using Nat.le_induction with
  | base =>
    rw [List.drop_length]
    exact ⟨le_rfl, trivial, trivial⟩
  | succ n hn ih =>
    obtain ⟨hle, htiles, htracks⟩ := ih fun v h₁ h₂ => hmode v h₁ (by omega)
    have hen : (rleAt c₀ inp n).enable = (run c₀ inp g).csr.rleEnableQ := hmode n hn (by omega)
    rw [← hen] at htracks ⊢
    obtain ⟨hnew, hnext⟩ := Rle.tracks_step (i := rleAt c₀ inp n) hW (depthLog2_bounds p).1 rfl
      (bounded_run c₀ inp n) htracks
    rw [words, List.drop_append_of_le_length hle, List.map_append, tiles_append, endOf_append,
      List.length_append]
    exact ⟨by omega, ⟨htiles.mono (List.prefix_append _ _), hnew⟩, hnext⟩

/-! ### The tagged word -/

theorem words_prefix (c₀ : Capture p) (inp : ℕ → CaptureIn p) {m n : ℕ} (h : m ≤ n) :
    words c₀ inp m <+: words c₀ inp n := by
  induction n, h using Nat.le_induction with
  | base => exact List.prefix_rfl
  | succ n _ ih => exact ih.trans (List.prefix_append _ _)

theorem words_getElem {m n : ℕ} (h : m ≤ n) {l : List (BitVec (p.probeW + 1) × ℕ)}
    {x : BitVec (p.probeW + 1) × ℕ} (hm : words c₀ inp m = l ++ [x]) :
    (words c₀ inp n)[l.length]? = some x := by
  obtain ⟨t, ht⟩ := words_prefix c₀ inp h
  rw [← ht, hm, List.append_assoc, List.getElem?_append_right le_rfl, Nat.sub_self]
  rfl

/-- Where the accepted word stands among the words produced, and which sample it is. -/
theorem accepted_tok (hr : p.rleEn = true) {u n : ℕ} (hu : u < n)
    (h : acceptsAt c₀ inp u = true) :
    ∃ v, (v = u ∨ v + 1 = u) ∧ (run c₀ inp v).trigFire (inp v) = true ∧
      (words c₀ inp n)[(Core.presented (coreInp c₀ inp) u).length]? =
        some (Rle.dataWord (run c₀ inp v).trigger.sampleO, (raw c₀ inp v).length + 1) := by
  have hc := (acceptsAt_iff.mp h).1
  have hlen := words_length hr c₀ inp u
  rw [coreTrig, if_pos hr] at hc
  rcases Rle.trigOut_cases rfl hc with ⟨hv, ht, -⟩ | ⟨hv, -, ht, -, -⟩
  · have hheld : tagHeld (run c₀ inp u) = true := by simp [tagHeld, hr, hv, ht]
    cases u with
    | zero => cases hv
    | succ v =>
      obtain ⟨l, hl⟩ := Rle.produced_of_pendTrig (r := (run c₀ inp v).rle) (i := rleAt c₀ inp v) rfl
        hv ht (raw c₀ inp v).length
      have hw : words c₀ inp (v + 1) = (words c₀ inp v ++ l) ++
          [(Rle.dataWord (run c₀ inp v).trigger.sampleO, (raw c₀ inp v).length + 1)] := by
        rw [words, hl, List.append_assoc]
        rfl
      rw [pending, if_pos hv, hw, List.length_append, List.length_singleton,
        List.length_singleton] at hlen
      refine ⟨v, Or.inr rfl, (tagHeld_succ hheld).2.1, ?_⟩
      rw [← Nat.add_right_cancel hlen]
      exact words_getElem hu.le hw
  · simp only [pending, hv, Bool.false_eq_true, ↓reduceIte, List.length_nil, Nat.add_zero] at hlen
    refine ⟨u, Or.inl rfl, ht, ?_⟩
    have hw : words c₀ inp (u + 1) = words c₀ inp u ++
        [(Rle.dataWord (run c₀ inp u).trigger.sampleO, (raw c₀ inp u).length + 1)] := by
      rw [words, Rle.produced_of_trigOut (i := rleAt c₀ inp u) rfl hv hc]
      rfl
    rw [← hlen]
    exact words_getElem hu hw

/-! ### The decoded window -/

theorem rleDecodeWords_tok {W : ℕ} (ws : List (BitVec (W + 1) × ℕ)) :
    rleDecodeWords (ws.map fun x => x.1.toNat) W = decode none ((ws.map tok).map Prod.fst) := by
  rw [rleDecodeWords_eq, List.map_map, List.map_map]
  rfl

/-- `reorder_window` on the window in the buffer in cycle `n`, under the effective
pretrigger count `pre`. -/
def reordered (c₀ : Capture p) (inp : ℕ → CaptureIn p) (n pre : ℕ) : List ℕ × ℤ :=
  let c := (run c₀ inp n).core
  reorderWindow (c.slice.map BitVec.toNat) (c.trigIndex.toNat - c.base.toNat) c.wrapped pre

/-- What the host makes of a window: the decoded samples, and how many of them come
before the trigger word. -/
def decodedWindow (probeW : ℕ) (w : List ℕ × ℤ) : List ℕ × ℕ :=
  (rleDecodeWords w.1 probeW, (rleDecodeWords (w.1.take w.2.toNat) probeW).length)

/-- A decoded window is the samples from `m` on, and its trigger is sample `j`. -/
structure Cut (xs : List ℕ) (m j : ℕ) (d : List ℕ × ℕ) : Prop where
  contiguous : d.1 = (xs.drop m).take d.1.length
  index : m + d.2 = j
  inside : d.2 < d.1.length

theorem Cut.getElem {xs : List ℕ} {m j : ℕ} {d : List ℕ × ℕ} (h : Cut xs m j d) :
    d.1[d.2]? = xs[j]? := by
  rw [h.contiguous, List.getElem?_take_of_lt h.inside, List.getElem?_drop, h.index]

/-- Tiling words around a tagged word decode to a part of the stream around its sample. -/
theorem cut_of_tiles {W : ℕ} {xs : List ℕ} {ws : List (BitVec (W + 1) × ℕ)} {pre j : ℕ}
    {v : BitVec W} (h : Tiles xs none (ws.map tok))
    (hv : ws[pre]? = some (Rle.dataWord v, j + 1)) :
    ∃ m, Cut xs m j (decodedWindow W (ws.map fun x => x.1.toNat, (pre : ℤ))) := by
  obtain ⟨hlt, hget⟩ := List.getElem?_eq_some_iff.mp hv
  have hsplit : ws.map tok = (ws.take pre).map tok ++
      (.data v.toNat, j + 1) :: (ws.drop (pre + 1)).map tok := by
    have hx : tok (Rle.dataWord v, j + 1) = (.data v.toNat, j + 1) := by
      rw [tok, Rle.classify_dataWord]
    conv_lhs => rw [← List.take_append_drop pre ws, List.drop_eq_getElem_cons hlt, hget]
    rw [List.map_append, List.map_cons, hx]
  rw [hsplit] at h
  obtain ⟨m, e, hme, hlen, hdec, htrig, hle⟩ := decode_around h
  rw [← hsplit, ← rleDecodeWords_tok] at hdec
  rw [← rleDecodeWords_tok, List.map_take] at htrig
  have hspan := span_length xs hlen (m := m)
  refine ⟨m, ?_, ?_, ?_⟩
  · change rleDecodeWords (ws.map fun x => x.1.toNat) W = _
    rw [decodedWindow, hdec, hspan]
    rfl
  · change m + (rleDecodeWords ((ws.map fun x => x.1.toNat).take pre) W).length = j
    omega
  · change (rleDecodeWords ((ws.map fun x => x.1.toNat).take pre) W).length <
      (rleDecodeWords (ws.map fun x => x.1.toNat) W).length
    rw [hdec, hspan]
    omega

/-- A window that completes in cycle `n`, decoded: `a` is the arm cycle of the run, `u`
the cycle that accepted the trigger, asserted on the sample of cycle `v`. -/
structure DecodedWindow (c₀ : Capture p) (inp : ℕ → CaptureIn p) (n a u v m : ℕ)
    (d : List ℕ × ℕ) : Prop where
  arm : Core.LastArm c₀.core (coreInp c₀ inp) a n
  accept : u < n ∧ acceptsAt c₀ inp u = true
  after : ∀ w, u < w → w ≤ n → stAt c₀ inp w = .triggered
  asserted : (v = u ∨ v + 1 = u) ∧ (run c₀ inp v).trigFire (inp v) = true
  decoded : d = decodedWindow p.probeW (reordered c₀ inp (n + 1)
    (Core.pretrigOf p.depthLog2 (run c₀ inp n).csr.pretrigQ (run c₀ inp a).csr.windowsQ))
  cut : Cut (raw c₀ inp (n + 1)) m (raw c₀ inp v).length d
  trigger : d.1[d.2]? = some (run c₀ inp v).trigger.sampleO.toNat

/-- The sample of a trigger's store tick, in the sample stream. -/
theorem raw_getElem {v n : ℕ} (hv : v < n) (h : (run c₀ inp v).trigFire (inp v) = true) :
    (raw c₀ inp n)[(raw c₀ inp v).length]? = some (run c₀ inp v).trigger.sampleO.toNat := by
  rw [trigFire_eq, Bool.and_eq_true] at h
  exact collect_getElem (Rle.sampleOf_valid h.2) hv

/-- What a completed window of the run armed in cycle `a` decodes to. -/
theorem decoded_cut (hr : p.rleEn = true) (hW : p.depthLog2 ≤ p.probeW) {a n : ℕ}
    (ha : Core.LastArm c₀.core (coreInp c₀ inp) a n) (hs : stAt c₀ inp n = .triggered)
    (hd : stAt c₀ inp (n + 1) = .done) : ∃ u v m, (u < n ∧ acceptsAt c₀ inp u = true) ∧
      (∀ w, u < w → w ≤ n → stAt c₀ inp w = .triggered) ∧
      ((v = u ∨ v + 1 = u) ∧ (run c₀ inp v).trigFire (inp v) = true) ∧
      Cut (raw c₀ inp (n + 1)) m (raw c₀ inp v).length (decodedWindow p.probeW (reordered c₀ inp (n + 1)
        (Core.pretrigOf p.depthLog2 (run c₀ inp n).csr.pretrigQ (run c₀ inp a).csr.windowsQ))) := by
  obtain ⟨f, u, k, hw, hacc, hafter⟩ := window_done hs hd
  obtain ⟨g, rfl, -⟩ := hw.begins
  have hlt := hw.u_lt
  have hle := hw.f_le
  have hlast := hw.last
  have hpos := hw.trig_pos
  have hpre := hw.pre_lt
  have hfirst := hw.first
  have hbusy : ∀ w, g < w → w ≤ n → stAt c₀ inp w ≠ .idle := by
    intro w h₁ h₂
    rcases Nat.lt_or_ge u w with h | h
    · rw [hafter w h h₂]
      decide
    · rw [stAt, core_run]
      rcases hw.before w h₁ h with h | h <;> rw [h] <;> decide
  obtain ⟨v, hv, hfire, hword⟩ := accepted_tok hr (show u < n + 1 by omega) hacc
  -- the words of the window are among those produced since cycle `g`, in one mode
  obtain ⟨-, htiles, -⟩ := tiles_from hW c₀ inp (show g ≤ n + 1 by omega)
    fun w h₁ h₂ => rleEnable_window hbusy h₁ (by omega)
  have hg := words_length_le hr c₀ inp g
  have hwin := htiles.part (k - (words c₀ inp g).length) (Core.sizeAt c₀.core (coreInp c₀ inp) (n + 1))
  rw [← List.map_drop, ← List.map_take, List.drop_drop, Nat.add_sub_cancel' (by omega)] at hwin
  have hget : (((words c₀ inp (n + 1)).drop k).take (Core.sizeAt c₀.core (coreInp c₀ inp) (n + 1)))[
      Core.preAt c₀.core (coreInp c₀ inp) n]? =
        some (Rle.dataWord (run c₀ inp v).trigger.sampleO, (raw c₀ inp v).length + 1) := by
    rw [List.getElem?_take_of_lt hpre, List.getElem?_drop, hpos, hword]
  obtain ⟨m, hcut⟩ := cut_of_tiles hwin hget
  have hord : reordered c₀ inp (n + 1)
      (Core.pretrigOf p.depthLog2 (run c₀ inp n).csr.pretrigQ (run c₀ inp a).csr.windowsQ) =
      ((((words c₀ inp (n + 1)).drop k).take
        (Core.sizeAt c₀.core (coreInp c₀ inp) (n + 1))).map fun x => x.1.toNat,
        (Core.preAt c₀.core (coreInp c₀ inp) n : ℤ)) := by
    have hq : (Core.run c₀.core (coreInp c₀ inp) n).windowsQ = (run c₀ inp a).csr.windowsQ :=
      ha.windowsQ
    have hread := hw.read_back
    rw [Core.preAt, hq] at hread ⊢
    rw [← storedWords_stretch hr hlast, storedWords, ← List.map_drop, ← List.map_take, reordered,
      core_run, reorderWindow_map]
    exact congrArg (fun r => (r.1.map BitVec.toNat, r.2)) hread
  rw [← hord] at hcut
  exact ⟨u, v, m, ⟨hlt, hacc⟩, hafter, ⟨hv, hfire⟩, hcut⟩

/-- Whatever the encoder did, a completed window decodes to consecutive samples, with the
sample of the accepted trigger where the words before it say. -/
theorem window_decoded (hr : p.rleEn = true) (hW : p.depthLog2 ≤ p.probeW) (c₀ : Capture p)
    (inp : ℕ → CaptureIn p) (n : ℕ) (hs : stAt c₀ inp n = .triggered)
    (hd : stAt c₀ inp (n + 1) = .done) : ∃ a u v m d, DecodedWindow c₀ inp n a u v m d := by
  obtain ⟨a, ha⟩ := lastArm_of_busy (show stAt c₀ inp n ≠ .idle by rw [hs]; decide)
  obtain ⟨u, v, m, hacc, hafter, hfire, hcut⟩ := decoded_cut hr hW ha hs hd
  have hv : v < n + 1 := by
    have := hacc.1
    omega
  refine ⟨a, u, v, m, _, ha, hacc, hafter, hfire, rfl, hcut, ?_⟩
  rw [hcut.getElem, raw_getElem hv hfire.2]

/-- Eight probe bits under the encoder. -/
def byteRle : Params := .small 8 true (by decide)

/-- Two samples a slice, encoder on, arm and force; the probes change in every other cycle. -/
def stairsIn (n : ℕ) : CaptureIn byteRle where
  probe := BitVec.ofNat 8 (n / 2)
  trigExtI := false
  bus :=
    if n = 0 then .wr csrWindows 128
    else if n = 1 then .wr csrRleCtrl 1
    else if n = 2 then .wr csrCtrl 1
    else if n = 3 then .wr csrCtrl 4
    else .idle

theorem stairsIn_window_decoded :
    ∃ a u v m d, DecodedWindow (blank byteRle) stairsIn 6 a u v m d :=
  window_decoded rfl le_rfl _ _ 6 (by decide) (by decide)

end FpgaScope.Capture
