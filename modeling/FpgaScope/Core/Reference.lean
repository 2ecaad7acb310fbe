import FpgaScope.Core.Golden
import FpgaScope.Sim.CaptureModel

/-! The capture core against `capture_model`, the reference of the single-window benches. With one
window the loop of `windows_model` is the loop of `capture_model` until the window is complete,
so the core follows it as well; a trigger outside `ARMED` reaches neither. -/

namespace FpgaScope

open Clocked

namespace Sim.WinState

variable {α : Type*} {L P k : ℕ} {acc : Bool} {s : α} {v : WinState α}

/-- The variables that `capture_model` has too. -/
def single (v : WinState α) : CapState α where
  buf := v.buf
  st := v.st
  wptr := v.off
  fill := v.fill
  post := v.post
  wrapped := v.wrapped
  trigIndex := v.trigIndex

@[simp] theorem single_st : v.single.st = v.st := rfl
@[simp] theorem single_fillNext : v.single.fillNext = v.fillNext := rfl
@[simp] theorem single_postNext : v.single.postNext = v.postNext := rfl

/-- The assignments, and state `σ` next. -/
theorem single_datapath (hb : v.base = 0) (σ : WinSt) :
    single { datapath (2 ^ L - 1) P k acc s v with st := σ } =
      { CapState.cycle (2 ^ L) P acc s v.single with st := σ } := by
  have hpos := Nat.two_pow_pos L
  have hpost : ((2 ^ L - 1 : ℕ) : ℤ) - P = ((2 ^ L : ℕ) : ℤ) - P - 1 := by omega
  have haddr : v.base ||| v.off = v.off := by rw [hb, Nat.zero_or]
  simp only [single, datapath, CapState.cycle, haddr, hpost, Nat.and_two_pow_sub_one_eq_mod]
  rfl

/-- Inside the first window the two loops are one. -/
theorem single_cycle (hb : v.base = 0) (hs : v.st ≠ .done) (hacc : acc = true → v.st = .armed) :
    (cycle (1 <<< L) (2 ^ L - 1) P 1 k acc s v).single = CapState.cycle (2 ^ L) P acc s v.single ∧
      (cycle (1 <<< L) (2 ^ L - 1) P 1 k acc s v).base = 0 := by
  have hno : v.st ≠ .armed → acc = false := fun hne => by
    cases acc with
    | false => rfl
    | true => exact absurd (hacc rfl) hne
  have hstep : ∀ σ metas, (CapState.cycle (2 ^ L) P acc s v.single).st = σ →
      cycle (1 <<< L) (2 ^ L - 1) P 1 k acc s v =
        { datapath (2 ^ L - 1) P k acc s v with st := σ, metas := metas } →
      (cycle (1 <<< L) (2 ^ L - 1) P 1 k acc s v).single = CapState.cycle (2 ^ L) P acc s v.single ∧
        (cycle (1 <<< L) (2 ^ L - 1) P 1 k acc s v).base = 0 := by
    rintro σ metas rfl hcycle
    rw [hcycle]
    exact ⟨single_datapath hb _, hb⟩
  cases hst : v.st with
  | filling =>
    by_cases hn : P ≤ v.fillNext
    · refine hstep .armed v.metas (by simp [CapState.cycle, hst, hn]) ?_
      simp [cycle, control, hst, hn, datapath]
    · refine hstep .filling v.metas (by simp [CapState.cycle, hst, hn]) ?_
      simp [cycle, control, hst, hn, datapath]
  | armed =>
    cases acc with
    | false =>
      refine hstep .armed v.metas (by simp [CapState.cycle, hst]) ?_
      simp [cycle, control, hst, datapath]
    | true =>
      refine hstep .triggered v.metas (by simp [CapState.cycle, hst]) ?_
      simp [cycle, control, hst, datapath]
  | triggered =>
    obtain rfl := hno (by simp [hst])
    by_cases hn : v.postNext = 0
    · let d := datapath (2 ^ L - 1) P k false s v
      refine hstep .done (d.metas ++ [⟨d.accCycle, d.trigIndex, d.wrapped⟩]) (by simp [CapState.cycle, hst, hn]) ?_
      simp [d, cycle, control, hst, hn]
    · refine hstep .triggered v.metas (by simp [CapState.cycle, hst, hn]) ?_
      simp [cycle, control, hst, hn, datapath]
  | done => exact absurd hst hs

end Sim.WinState

namespace Core

open Sim

variable {W L T : ℕ} {c : Core W L T} {i : CoreIn W L} {v : WinState (BitVec W)} {pretrig : BitVec L}

/-- Outside `ARMED` the trigger input is not looked at. -/
theorem step_untriggered (h : c.st ≠ .armed) : step c i = step c { i with trig := false } := by
  have hoff := trigAccept_of_ne i h
  have hoff' := trigAccept_of_ne { i with trig := false } h
  unfold step control datapath
  rw [hoff, hoff']
  rfl

/-- The whole buffer in address order, as the model returns it. -/
def image (c : Core W L T) : List (Option (BitVec W)) := (List.range (2 ^ L)).map fun a => some (bufAt c a)

theorem stateOf_ne_done {σ : WinSt} (h : σ ≠ .done) : stateOf σ ≠ .done := by
  cases σ <;> first | exact absurd rfl h | simp [stateOf]

/-- A full buffer of the model is the core's. -/
theorem Follows.image_eq (h : Follows pretrig 1 c v) (hfull : v.buf.all Option.isSome = true) : v.buf = c.image := by
  refine List.ext_getElem (by rw [Core.image, List.length_map, List.length_range]; exact h.size) fun a ha ha' => ?_
  obtain ⟨x, hx⟩ := Option.isSome_iff_exists.mp (List.all_eq_true.mp hfull _ (List.getElem_mem ha))
  have hbuf := h.buf a x (by rw [List.getElem?_eq_getElem ha, hx])
  simp [Core.image, hx, hbuf]

/-- One cycle of both; where the trigger is lost it is lost in both. -/
theorem Follows.single_step (hL : 1 ≤ L) (hL' : L ≤ 16) (h : Follows pretrig 1 c v) (hb : v.base = 0)
    (hs : v.st ≠ .done) {s : BitVec W} {k t : ℕ} (hi : Drives pretrig s (decide (k = t)) i) :
    ∃ v', Follows pretrig 1 (Core.step c i) v' ∧ v'.base = 0 ∧
      v'.single = CapState.cycle (2 ^ L) pretrig.toNat (v.single.acc k t) s v.single := by
  have hpretrig : pretrigOf L pretrig 1 = pretrig.toNat := by
    rw [pretrigOf, weff_one hL hL', show Nat.log2 1 = 0 by decide, Nat.shiftRight_zero]
  have hsize : sliceSize L 1 = 2 ^ L := sliceSize_one hL hL'
  have harmed : v.single.acc k t = true → v.st = .armed := fun ha => by
    simpa using (Bool.and_eq_true_iff.mp ha).2
  have hret : v.returns (1 : BitVec 8).toNat = false := by simp [WinState.returns, hs]
  obtain ⟨hsingle, hbase⟩ := WinState.single_cycle (L := L) (P := pretrig.toNat) (k := k) (s := s) hb hs harmed
  rw [← hpretrig, ← hsize] at hsingle hbase
  refine ⟨goldenCycle pretrig 1 k (v.single.acc k t) s v, ?_, hbase, by rw [← hpretrig, ← hsize]; exact hsingle⟩
  by_cases hst : v.st = .armed
  · have hacc : v.single.acc k t = decide (k = t) := by simp [CapState.acc, hst]
    exact h.step hL hL' (hacc ▸ hi) harmed hret
  · have hacc : v.single.acc k t = false := by simp [CapState.acc, hst]
    have hne : c.st ≠ .armed := by
      rw [h.st]
      cases hv : v.st <;> first | exact absurd hv hst | (simp [stateOf])
    rw [step_untriggered hne]
    exact h.step hL hL' ⟨hi.arm, hi.disarm, hi.valid, hi.data, hacc.symm, hi.pretrig⟩ harmed hret

/-- What the registers show when the capture is done in the cycle after sample `n - 1`. -/
def shown (c : Core W L T) (n : ℕ) : List (Option (BitVec W)) × Option ℕ × Bool × ℕ :=
  (c.image, some c.trigIndex.toNat, c.wrapped, n)

/-- The core is done for the first time after cycle `k` behind sample `n - 1`. -/
def FirstDone (c₀ : Core W L T) (inp : ℕ → CoreIn W L) (k n : ℕ) : Prop :=
  (trace step c₀ inp (n + 1)).st = .done ∧ ∀ m, k < m → m ≤ n → (trace step c₀ inp m).st ≠ .done

/-- From sample `k` on the loop returns what the core shows when it is done. -/
theorem Follows.single_loop (hL : 1 ≤ L) (hL' : L ≤ 16) {c₀ : Core W L T} {inp : ℕ → CoreIn W L}
    {xs : List (BitVec W)} {k t : ℕ} (h : Follows pretrig 1 (trace Core.step c₀ inp (k + 1)) v) (hb : v.base = 0)
    (hs : v.st ≠ .done) (hat : CapState.At xs (2 ^ L) pretrig.toNat t k v.single) (hk : k ≤ xs.length)
    (hfeed : ∀ j s, xs[j]? = some s → Drives pretrig s (decide (j = t)) (inp (j + 1)))
    (out : List (Option (BitVec W)) × Option ℕ × Bool × ℕ) :
    CapState.loop (2 ^ L) pretrig.toNat t k v.single (xs.drop k) = some out ↔
      ∃ n, k < n ∧ n ≤ xs.length ∧ FirstDone c₀ inp k n ∧ out = (trace Core.step c₀ inp (n + 1)).shown n := by
  generalize hstim : xs.drop k = stim
  induction stim generalizing k v with
  | nil =>
    have hlen := List.drop_eq_nil_iff.mp hstim
    rw [CapState.loop]
    refine ⟨fun hq => (by cases hq), ?_⟩
    rintro ⟨n, h₁, h₂, -⟩
    omega
  | cons x stim ih =>
    have hlt : k < xs.length := by
      by_contra hge
      rw [List.drop_eq_nil_iff.mpr (by omega)] at hstim
      cases hstim
    rw [List.drop_eq_getElem_cons hlt, List.cons.injEq] at hstim
    obtain ⟨hx, hrest⟩ := hstim
    have hx : xs[k]? = some x := by rw [List.getElem?_eq_getElem hlt, hx]
    have hdrive := hfeed k x hx
    obtain ⟨v', hnext, hbase, hsingle⟩ := h.single_step hL hL' hb hs hdrive
    have hnext : Follows pretrig 1 (trace Core.step c₀ inp (k + 2)) v' := hnext
    have hst := hnext.st
    rw [CapState.loop, ← hsingle]
    have hpass := hat.step pretrig.isLt hx
    rw [← hsingle] at hpass
    rcases hpass with ⟨hst', hat'⟩ | ⟨hst', hT, hn, hstored, hindex⟩
    · simp only [if_neg hst']
      have hbusy : (trace Core.step c₀ inp (k + 2)).st ≠ .done := by
        rw [hst]
        exact stateOf_ne_done hst'
      have hnow : (trace Core.step c₀ inp (k + 1)).st ≠ .done := by
        rw [h.st]
        exact stateOf_ne_done hs
      rw [ih hnext hbase hst' hat' hlt hrest]
      constructor
      · rintro ⟨n, h₁, h₂, ⟨hdone, hfirst⟩, rfl⟩
        refine ⟨n, by omega, h₂, ⟨hdone, fun m h₃ h₄ => ?_⟩, rfl⟩
        rcases Nat.eq_or_lt_of_le (Nat.succ_le_of_lt h₃) with rfl | hlt'
        · exact hnow
        · exact hfirst m hlt' h₄
      · rintro ⟨n, h₁, h₂, ⟨hdone, hfirst⟩, rfl⟩
        have hne : n ≠ k + 1 := by
          rintro rfl
          exact hbusy hdone
        exact ⟨n, by omega, h₂, ⟨hdone, fun m h₃ h₄ => hfirst m (by omega) h₄⟩, rfl⟩
    · have hfull := (hstored.captured pretrig.isLt).full (by omega) (by rw [consumed] at hn; omega)
      have htrig : v.st = .triggered := CapState.cycle_done (hsingle ▸ hst') hs
      have hdone : (trace Core.step c₀ inp (k + 2)).st = .done := by
        rw [hst, show v'.st = .done from hst']
        rfl
      have hshown : (trace Core.step c₀ inp (k + 2)).shown (k + 1) =
          (v'.single.buf, v'.single.trigIndex, v'.single.wrapped, k + 1) := by
        have hcore : (trace Core.step c₀ inp (k + 1)).st = .triggered := by rw [h.st, htrig]; rfl
        have hkept : (trace Core.step c₀ inp (k + 2)).trigIndex = (trace Core.step c₀ inp (k + 1)).trigIndex := by
          rw [trace_succ, (step_latches _ _).2.1, trigAccept_of_ne _ (by rw [hcore]; decide), if_neg (by decide)]
        have hkept' : v'.single.trigIndex = v.single.trigIndex := by
          rw [hsingle]
          simp [CapState.cycle, CapState.acc, htrig]
        rw [shown, ← hnext.image_eq hfull, hkept, ← h.index htrig, hkept', ← hnext.wrapped]
        rfl
      simp only [if_pos hst', if_pos hfull, Option.some.injEq]
      constructor
      · rintro rfl
        refine ⟨k + 1, Nat.lt_succ_self k, hlt, ⟨hdone, fun m h₃ h₄ => ?_⟩, hshown.symm⟩
        rw [show m = k + 1 by omega, h.st]
        exact stateOf_ne_done hs
      · rintro ⟨n, h₁, h₂, ⟨-, hfirst⟩, rfl⟩
        have hn' : n = k + 1 := by
          by_contra hne
          exact hfirst (k + 2) (by omega) (by omega) hdone
        rw [hn', hshown]

/-- Armed from `IDLE` for one window and given the stimulus from the next cycle on, with the trigger
high in sample `t`, the core is done within the stimulus if and only if `capture_model` returns; then it
is done behind the last sample the model consumes, with the buffer, the trigger index and the wrap
flag of the model. -/
theorem capture_lockstep (hL : 1 ≤ L) (hL' : L ≤ 16) (c₀ : Core W L T) (inp : ℕ → CoreIn W L) (pretrig : BitVec L)
    (stim : List (BitVec W)) (t : ℕ) (hidle : c₀.st = .idle) (harm : (inp 0).arm = true)
    (hdis : (inp 0).disarm = false) (hwindows : (inp 0).windows = 1)
    (hfeed : ∀ k s, stim[k]? = some s → Drives pretrig s (decide (k = t)) (inp (k + 1)))
    (out : List (Option (BitVec W)) × Option ℕ × Bool × ℕ) :
    captureModel stim L pretrig.toNat t = some out ↔
      ∃ n ≤ stim.length, FirstDone c₀ inp 0 n ∧ out = (trace step c₀ inp (n + 1)).shown n := by
  have hstart : Follows pretrig 1 (trace step c₀ inp 1) (WinState.start (1 <<< L)) :=
    Follows.start hL hL' hidle harm hdis hwindows (by decide)
  have hat : CapState.At stim (2 ^ L) pretrig.toNat t 0 (CapState.start (2 ^ L)) := .start (Nat.two_pow_pos L)
  have hsingle : (WinState.start (1 <<< L) : WinState (BitVec W)).single = CapState.start (2 ^ L) := by
    rw [← Nat.one_shiftLeft]
    rfl
  have hloop := hstart.single_loop hL hL' rfl (by simp [WinState.start]) (hsingle.symm ▸ hat) (Nat.zero_le _) hfeed out
  rw [hsingle, List.drop_zero] at hloop
  have hmodel : captureModel stim L pretrig.toNat t = some out ↔
      CapState.loop (2 ^ L) pretrig.toNat t 0 (CapState.start (2 ^ L)) stim = some out := by
    rw [captureModel, Nat.one_shiftLeft]
    by_cases hle : pretrig.toNat ≤ t
    · rw [if_pos ⟨pretrig.isLt, hle⟩]
    · rw [if_neg fun hq => hle hq.2]
      refine ⟨fun hq => (by cases hq), fun hq => ?_⟩
      obtain ⟨hT, -⟩ := (hat.loop pretrig.isLt (Nat.zero_le _) out).mp hq
      omega
  rw [hmodel, hloop]
  constructor
  · rintro ⟨n, -, hn, hfirst⟩
    exact ⟨n, hn, hfirst⟩
  · rintro ⟨n, hn, hfirst⟩
    refine ⟨n, Nat.pos_of_ne_zero ?_, hn, hfirst⟩
    rintro rfl
    have hfilling : (trace step c₀ inp 1).st = .filling := hstart.st
    rw [FirstDone, hfilling] at hfirst
    cases hfirst.1.1

/-- Four words with a history of one, the trigger in sample 4. -/
def fourIn (n : ℕ) : CoreIn 8 2 where
  sampleData := BitVec.ofNat 8 (n - 1)
  sampleValid := true
  trig := decide (n = 5)
  arm := decide (n = 0)
  disarm := false
  pretrig := 1
  windows := 1
  rdAddr := 0
  winRdAddr := 0

theorem fourIn_lockstep : ∃ n ≤ 7, FirstDone (blank 8 2 48) fourIn 0 n ∧
    ([some 4, some 5, some 6, some 3], some 0, true, 7) = (trace step (blank 8 2 48) fourIn (n + 1)).shown n :=
  (capture_lockstep (by decide) (by decide) (blank 8 2 48) fourIn 1 ((List.range 7).map (BitVec.ofNat 8)) 4 rfl rfl
    rfl rfl (fun k s hs => by
      rw [List.getElem?_map, Option.map_eq_some_iff] at hs
      obtain ⟨x, hx, rfl⟩ := hs
      obtain ⟨hlt, rfl⟩ := List.getElem?_eq_some_iff.mp hx
      exact ⟨rfl, rfl, rfl, by simp [fourIn], by simp [fourIn], rfl⟩)
    ([some 4, some 5, some 6, some 3], some 0, true, 7)).mp (by decide)

end Core

end FpgaScope
