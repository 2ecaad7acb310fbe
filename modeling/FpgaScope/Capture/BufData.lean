import FpgaScope.Capture.Run
import FpgaScope.Core.Rest
import FpgaScope.Lib.Ring
import FpgaScope.Rtl.Avalon

/-! The drain pointer and `BUF_DATA`. The pointer moves on with the strobe, the read
register of the buffer follows it a cycle later: what a strobe returns is the lane it
points to, of the word the pointer was at in the cycle before. -/

namespace FpgaScope

/-! ### The pointer -/

theorem Params.bufLanes_bounds (p : Params) : 0 < p.bufLanes ∧ p.bufLanes ≤ 2 ^ p.laneCntW := by
  have hpos := p.storeW_pos
  refine ⟨by unfold Params.bufLanes; omega, ?_⟩
  unfold Params.laneCntW
  split
  · exact Nat.le_pow_clog (by norm_num) _
  · omega

namespace Csr

variable {p : Params} {W L : ℕ}

/-- The pointer is at lane `i` of the buffer, counted through all words. -/
structure PointsTo (c : Csr p) (i : ℕ) : Prop where
  addr : c.drainAddr = BitVec.ofNat p.depthLog2 (i / p.bufLanes)
  lane : c.drainLane = BitVec.ofNat p.laneCntW (i % p.bufLanes)

theorem PointsTo.lane_toNat {c : Csr p} {i : ℕ} (h : PointsTo c i) :
    c.drainLane.toNat = i % p.bufLanes := by
  obtain ⟨hpos, hle⟩ := p.bufLanes_bounds
  have hmod := Nat.mod_lt i hpos
  rw [h.lane, BitVec.toNat_ofNat, Nat.mod_eq_of_lt (by omega)]

theorem PointsTo.rewind (c : Csr p) {b : CsrBus} (h : (b.softRst || b.bufReset) = true)
    (core : Core W L p.tsW) : PointsTo (c.step b core) 0 := by
  have hptr : c.drainNext b = (0, 0) := by rw [drainNext, if_pos h]
  refine ⟨?_, ?_⟩
  · rw [Nat.zero_div]
    exact congrArg Prod.fst hptr
  · rw [Nat.zero_mod]
    exact congrArg Prod.snd hptr

/-- A strobe to `BUF_DATA` moves the pointer by one lane, nothing else moves it. -/
theorem PointsTo.step {c : Csr p} {i : ℕ} (h : PointsTo c i) {b : CsrBus}
    (hs : b.softRst = false) (hr : b.bufReset = false) (core : Core W L p.tsW) :
    PointsTo (c.step b core) (i + b.pop.toNat) := by
  obtain ⟨hpos, hle⟩ := p.bufLanes_bounds
  have hmod := Nat.mod_lt i hpos
  have hptr : ((c.step b core).drainAddr, (c.step b core).drainLane) = c.drainNext b := rfl
  rw [drainNext, hs, hr, Bool.or_self, if_neg (by decide)] at hptr
  cases hb : b.pop with
  | false =>
    rw [hb, if_neg (by decide)] at hptr
    obtain ⟨haddr, hlane⟩ := Prod.mk.inj hptr
    exact ⟨haddr.trans h.addr, hlane.trans h.lane⟩
  | true =>
    have hlast : (c.drainLane == BitVec.ofNat p.laneCntW (p.bufLanes - 1)) =
        decide (i % p.bufLanes = p.bufLanes - 1) := by
      rw [Bool.eq_iff_iff, beq_iff_eq, decide_eq_true_iff, ← BitVec.toNat_inj, h.lane_toNat,
        BitVec.toNat_ofNat, Nat.mod_eq_of_lt (show p.bufLanes - 1 < 2 ^ p.laneCntW by omega)]
    rw [hb, if_pos rfl, hlast, h.addr, h.lane] at hptr
    change PointsTo _ (i + 1)
    by_cases he : i % p.bufLanes = p.bufLanes - 1
    · obtain ⟨hdiv, hmod'⟩ := Ring.next_turn hpos he
      rw [if_pos (decide_eq_true he)] at hptr
      obtain ⟨haddr, hlane⟩ := Prod.mk.inj hptr
      refine ⟨?_, ?_⟩
      · rw [haddr, hdiv, BitVec.ofNat_add]
        rfl
      · rw [hlane, hmod']
        rfl
    · obtain ⟨hdiv, hmod'⟩ := Ring.next_slot (show i % p.bufLanes + 1 < p.bufLanes by omega)
      rw [if_neg (by simpa using he)] at hptr
      obtain ⟨haddr, hlane⟩ := Prod.mk.inj hptr
      refine ⟨?_, ?_⟩
      · rw [haddr, hdiv]
      · rw [hlane, hmod', BitVec.ofNat_add]
        rfl

end Csr

theorem getLane_setWidth {w w' : ℕ} (x : BitVec w) (h : w ≤ w') (j : ℕ) :
    getLane (x.setWidth w') j = getLane x j := by
  apply BitVec.eq_of_getLsbD_eq
  intro i hi
  simp only [getLane, BitVec.getLsbD_extractLsb', BitVec.getLsbD_setWidth, hi, decide_true,
    Bool.true_and]
  by_cases hlt : 32 * j + i < w'
  · simp [hlt]
  · simp [BitVec.getLsbD_of_ge x _ (show w ≤ 32 * j + i by omega)]

/-! ### Reading the buffer -/

namespace Capture

open Clocked

variable {p : Params}

/-- Strobes to `BUF_DATA` in the `m` cycles after cycle `t`. -/
def popCount (inp : ℕ → CaptureIn p) (t : ℕ) : ℕ → ℕ
  | 0 => 0
  | m + 1 => popCount inp t m + (inp (t + 1 + m)).bus.pop.toNat

/-- From a `BUF_CTRL` write in cycle `t` up to cycle `n`: an idle cycle first, no other
reset of the pointer, and the buffer frozen. -/
structure Reading (c₀ : Capture p) (inp : ℕ → CaptureIn p) (t n : ℕ) : Prop where
  rewind : (inp t).bus.bufReset = true
  gap : (inp (t + 1)).bus.pop = false
  kept : ∀ v, t < v → v < n → (inp v).bus.softRst = false ∧ (inp v).bus.bufReset = false
  frozen : ∀ v, t < v → v ≤ n → (run c₀ inp v).core.uBuf.mem = (run c₀ inp n).core.uBuf.mem

/-- The same from any reset of the pointer, and without the idle cycle. -/
structure Draining (c₀ : Capture p) (inp : ℕ → CaptureIn p) (t n : ℕ) : Prop where
  rewind : ((inp t).bus.softRst || (inp t).bus.bufReset) = true
  kept : ∀ v, t < v → v < n → (inp v).bus.softRst = false ∧ (inp v).bus.bufReset = false
  frozen : ∀ v, t < v → v ≤ n → (run c₀ inp v).core.uBuf.mem = (run c₀ inp n).core.uBuf.mem

theorem Reading.draining {c₀ : Capture p} {inp : ℕ → CaptureIn p} {t n : ℕ} (h : Reading c₀ inp t n) :
    Draining c₀ inp t n :=
  ⟨by rw [h.rewind, Bool.or_true], h.kept, h.frozen⟩

/-- The lane the `k`-th read is to return: lane `k mod L` of word `(k div L) mod DEPTH`. -/
def laneAt (core : Core p.storeW p.depthLog2 p.tsW) (k : ℕ) : BitVec 32 :=
  getLane (Core.bufAt core (k / p.bufLanes % Core.depth p.depthLog2)) (k % p.bufLanes)

variable {c₀ : Capture p} {inp : ℕ → CaptureIn p}

/-- The pointer counts the strobes. -/
theorem pointsTo_run {t n : ℕ} (h : Draining c₀ inp t n) (m : ℕ) (hm : t + 1 + m ≤ n) :
    (run c₀ inp (t + 1 + m)).csr.PointsTo (popCount inp t m) := by
  induction m with
  | zero => exact .rewind _ h.rewind _
  | succ m ih =>
    obtain ⟨hs, hr⟩ := h.kept (t + 1 + m) (by omega) (by omega)
    exact (ih (by omega)).step hs hr _

theorem bufAt_mod (core : Core p.storeW p.depthLog2 p.tsW) (i : ℕ) :
    Core.bufAt core (i % Core.depth p.depthLog2) = core.uBuf.mem (BitVec.ofNat p.depthLog2 i) := by
  rw [Core.bufAt]
  congr 1
  apply BitVec.eq_of_toNat_eq
  rw [BitVec.toNat_ofNat, BitVec.toNat_ofNat, Core.depth, Nat.mod_mod]

/-- A strobe returns the lane of the pointer, of the word before the last strobe. -/
theorem pop_rdata {t m : ℕ} (h : Draining c₀ inp t (t + 2 + m))
    (hpop : (inp (t + 2 + m)).bus.pop = true) :
    (run c₀ inp (t + 2 + m)).csrRdata (inp (t + 2 + m)) =
      getLane (Core.bufAt (run c₀ inp (t + 2 + m)).core
        (popCount inp t m / p.bufLanes % Core.depth p.depthLog2))
        (popCount inp t (m + 1) % p.bufLanes) := by
  have hcycle : t + 2 + m = t + 1 + (m + 1) := by omega
  have hlast := pointsTo_run h m (by omega)
  have hnow := pointsTo_run h (m + 1) (by omega)
  have haddr : (inp (t + 2 + m)).bus.addr = csrBufData := by
    simp only [CsrBus.pop, Bool.and_eq_true, beq_iff_eq] at hpop
    exact hpop.2
  have hread : (run c₀ inp (t + 2 + m)).core.uBuf.rdData =
      (run c₀ inp (t + 2 + m)).core.uBuf.mem (run c₀ inp (t + 1 + m)).csr.drainAddr := by
    rw [← h.frozen (t + 1 + m) (by omega) (by omega), show t + 2 + m = t + 1 + m + 1 by omega]
    exact (Core.step_reads _ _).1
  have hmux : (run c₀ inp (t + 2 + m)).csrRdata (inp (t + 2 + m)) =
      getLane ((run c₀ inp (t + 2 + m)).core.uBuf.rdData.setWidth p.bufPadW)
        (run c₀ inp (t + 2 + m)).csr.drainLane.toNat := by
    rw [csrRdata, Csr.rdata, haddr]
    rw [CsrBus.isLaneAddr, CsrBus.isSeqAddr, haddr]
    rfl
  have hwidth : p.storeW ≤ p.bufPadW := by
    unfold Params.bufPadW Params.bufLanes
    omega
  rw [hmux, getLane_setWidth _ hwidth, hread, hlast.addr, bufAt_mod]
  congr 1
  rw [hcycle]
  exact hnow.lane_toNat

theorem Draining.restrict {t n v : ℕ} (h : Draining c₀ inp t n) (h₁ : t < v) (h₂ : v ≤ n) :
    Draining c₀ inp t v :=
  ⟨h.rewind, fun u hu hv => h.kept u hu (by omega),
    fun u hu hv => (h.frozen u hu (by omega)).trans (h.frozen v h₁ h₂).symm⟩

theorem laneAt_frozen {t n v : ℕ} (h : Draining c₀ inp t n) (h₁ : t < v) (h₂ : v ≤ n) (k : ℕ) :
    laneAt (run c₀ inp v).core k = laneAt (run c₀ inp n).core k := by
  rw [laneAt, laneAt, bufAt_mod, bufAt_mod, h.frozen v h₁ h₂]

/-- What a strobe to `BUF_DATA` returns. -/
def popped (c₀ : Capture p) (inp : ℕ → CaptureIn p) (v : ℕ) : Option (BitVec 32) :=
  if (inp v).bus.pop then some ((run c₀ inp v).csrRdata (inp v)) else none

/-- Strobes that never come in consecutive cycles return the lanes in order. -/
theorem spaced_pops {t n : ℕ} (h : Draining c₀ inp t n) (hgap : (inp (t + 1)).bus.pop = false)
    (hspaced : ∀ v, (inp v).bus.pop = true → (inp (v + 1)).bus.pop = false) (m : ℕ) (hm : t + 1 + m ≤ n) :
    (collect (fun v => popped c₀ inp (t + 1 + v)) m).length = popCount inp t m ∧
      ∀ k x, (collect (fun v => popped c₀ inp (t + 1 + v)) m)[k]? = some x →
        x = laneAt (run c₀ inp n).core k := by
  induction m with
  | zero => exact ⟨rfl, fun k x hx => by cases hx⟩
  | succ m ih =>
    obtain ⟨hlen, hget⟩ := ih (by omega)
    cases hpop : (inp (t + 1 + m)).bus.pop with
    | false =>
      have hnone : popped c₀ inp (t + 1 + m) = none := if_neg (by rw [hpop]; decide)
      rw [collect_succ, hnone, Option.toList_none, List.append_nil, popCount, hpop]
      exact ⟨hlen, hget⟩
    | true =>
      have hsome : popped c₀ inp (t + 1 + m) = some ((run c₀ inp (t + 1 + m)).csrRdata (inp (t + 1 + m))) :=
        if_pos hpop
      rw [collect_succ, hsome, Option.toList_some, popCount, hpop]
      refine ⟨by rw [List.length_append, hlen]; rfl, fun k x hx => ?_⟩
      rw [List.getElem?_append] at hx
      split at hx
      · exact hget k x hx
      · rename_i hk
        obtain ⟨hlt, rfl⟩ := List.getElem?_eq_some_iff.mp hx
        rw [List.length_singleton] at hlt
        rw [List.getElem_singleton, show k = popCount inp t m by omega]
        -- the cycle before was no strobe: the address has not moved since
        cases m with
        | zero => rw [Nat.add_zero, hgap] at hpop; cases hpop
        | succ m =>
          have hbefore : (inp (t + 1 + m)).bus.pop = false := by
            by_contra hne
            have := hspaced _ (by simpa using hne)
            rw [show t + 1 + m + 1 = t + 1 + (m + 1) by omega, hpop] at this
            cases this
          have hcycle : t + 1 + (m + 1) = t + 2 + m := by omega
          have hcount : popCount inp t (m + 1) = popCount inp t m := by rw [popCount, hbefore]; rfl
          rw [hcycle] at hpop ⊢
          have hframe := laneAt_frozen (v := t + 2 + m) h (by omega) (by omega) (popCount inp t (m + 1))
          rw [pop_rdata (h.restrict (by omega) (by omega)) hpop, ← hframe, laneAt, hcount]

theorem div_pred {k n : ℕ} (hn : 0 < n) :
    k / n = if (k + 1) % n = 0 then (k + 1) / n - 1 else (k + 1) / n := by
  have hmod := Nat.mod_lt k hn
  by_cases h : k % n = n - 1
  · obtain ⟨hdiv, hzero⟩ := Ring.next_turn hn h
    rw [if_pos hzero, hdiv, Nat.add_sub_cancel]
  · obtain ⟨hdiv, hnext⟩ := Ring.next_slot (show k % n + 1 < n by omega)
    rw [if_neg (by omega), hdiv]

/-- The `k`-th `BUF_DATA` read after a rewind returns its lane, unless it follows in the
very next cycle on the read of the last lane of a word: then it returns the first lane of
that word again, which is right only if the two words agree there. -/
theorem buf_data_lanes (c₀ : Capture p) (inp : ℕ → CaptureIn p) (t m : ℕ)
    (h : Reading c₀ inp t (t + 2 + m)) (hpop : (inp (t + 2 + m)).bus.pop = true) :
    ((run c₀ inp (t + 2 + m)).csrRdata (inp (t + 2 + m)) =
        laneAt (run c₀ inp (t + 2 + m)).core (popCount inp t (m + 1)) ↔
      ((inp (t + 1 + m)).bus.pop = true → popCount inp t (m + 1) % p.bufLanes = 0 →
        getLane (Core.bufAt (run c₀ inp (t + 2 + m)).core
          ((popCount inp t (m + 1) / p.bufLanes - 1) % Core.depth p.depthLog2)) 0 =
        getLane (Core.bufAt (run c₀ inp (t + 2 + m)).core
          (popCount inp t (m + 1) / p.bufLanes % Core.depth p.depthLog2)) 0)) ∧
    ∀ a : AvalonIn, a.bus = (inp (t + 2 + m)).bus → a.waitrequest = false ∧
      a.readdata ((run c₀ inp (t + 2 + m)).csrRdata (inp (t + 2 + m))) =
        (run c₀ inp (t + 2 + m)).csr.rdata a.bus (run c₀ inp (t + 2 + m)).core := by
  refine ⟨?_, fun a ha => ⟨rfl, by rw [ha]; rfl⟩⟩
  rw [pop_rdata h.draining hpop, laneAt]
  have hcount : popCount inp t (m + 1) = popCount inp t m + (inp (t + 1 + m)).bus.pop.toNat := rfl
  cases hlast : (inp (t + 1 + m)).bus.pop with
  | false =>
    rw [hlast] at hcount
    rw [hcount]
    exact iff_of_true rfl fun hx => by cases hx
  | true =>
    rw [hlast, Bool.toNat_true] at hcount
    rw [div_pred p.bufLanes_bounds.1, ← hcount]
    by_cases hzero : popCount inp t (m + 1) % p.bufLanes = 0
    · simp [hzero]
    · simp [hzero]

/-- Word `a` of the buffer holds the low bit of `a`. -/
def parityMem : Capture oneBit :=
  { blank oneBit with
    core := { Core.blank oneBit.storeW oneBit.depthLog2 oneBit.tsW with
      uBuf := { mem := fun a => BitVec.ofNat _ a.toNat, rdData := 0 } } }

/-- A rewind in cycle 0, then strobes to `BUF_DATA` in the cycles of `pops`. -/
def readsIn (pops : List ℕ) (n : ℕ) : CaptureIn oneBit where
  probe := 0
  trigExtI := false
  bus := if n = 0 then .wr csrBufCtrl 1 else if n ∈ pops then .rd csrBufData else .idle

theorem readsIn_bus (pops : List ℕ) {v : ℕ} (hv : 0 < v) :
    (readsIn pops v).bus = .rd csrBufData ∨ (readsIn pops v).bus = .idle := by
  unfold readsIn
  rw [if_neg (by omega)]
  by_cases hp : v ∈ pops
  · exact Or.inl (if_pos hp)
  · exact Or.inr (if_neg hp)

/-- Nothing arms the core: it stays idle, its buffer as it was. -/
theorem readsIn_rests (pops : List ℕ) (v : ℕ) :
    (run parityMem (readsIn pops) v).core.Rests ∧
      (run parityMem (readsIn pops) v).core.uBuf.mem = parityMem.core.uBuf.mem := by
  induction v with
  | zero => exact ⟨Or.inl rfl, rfl⟩
  | succ v ih =>
    have harm : (readsIn pops v).bus.arm = false := by
      rcases Nat.eq_zero_or_pos v with rfl | hv
      · rfl
      · rcases readsIn_bus pops hv with h | h <;> rw [h] <;> rfl
    have hno : (run parityMem (readsIn pops) v).core.armAccept
        (coreInp parityMem (readsIn pops) v) = false := by
      rw [Core.armAccept, show (coreInp parityMem (readsIn pops) v).arm = false from harm,
        Bool.false_and, Bool.false_and]
    obtain ⟨hr, hf⟩ := ih.1.frozen hno
    exact ⟨hr, hf.buf.trans ih.2⟩

theorem readsIn_reading (pops : List ℕ) (n : ℕ) (hgap : (readsIn pops 1).bus.pop = false) :
    Reading parityMem (readsIn pops) 0 n := by
  have hrewind : (CsrBus.wr csrBufCtrl 1).bufReset = true := by decide
  refine ⟨hrewind, hgap, fun v hv _ => ?_, fun v _ _ =>
    (readsIn_rests pops v).2.trans (readsIn_rests pops n).2.symm⟩
  rcases readsIn_bus pops hv with h | h <;> rw [h] <;> exact ⟨rfl, rfl⟩

/-- Reads in cycles 2 and 4 return words 0 and 1. -/
theorem readsIn_spaced :
    (run parityMem (readsIn [2, 4]) 4).csrRdata (readsIn [2, 4] 4) =
      laneAt (run parityMem (readsIn [2, 4]) 4).core 1 :=
  (buf_data_lanes parityMem (readsIn [2, 4]) 0 2 (readsIn_reading _ _ rfl) rfl).1.mpr
    fun h => by cases h

/-- The second of two reads in consecutive cycles returns word 0 again. -/
theorem readsIn_repeated :
    ¬ ∀ (p : Params) (c₀ : Capture p) (inp : ℕ → CaptureIn p) (t m : ℕ),
      Reading c₀ inp t (t + 2 + m) → (inp (t + 2 + m)).bus.pop = true →
        (run c₀ inp (t + 2 + m)).csrRdata (inp (t + 2 + m)) =
          laneAt (run c₀ inp (t + 2 + m)).core (popCount inp t (m + 1)) := by
  intro h
  have hreading := readsIn_reading [2, 3] 3 rfl
  have hread := h oneBit parityMem (readsIn [2, 3]) 0 1 hreading rfl
  rw [pop_rdata hreading.draining rfl, laneAt, bufAt_mod, bufAt_mod, (readsIn_rests _ _).2] at hread
  exact absurd hread (by decide)

end Capture

end FpgaScope
