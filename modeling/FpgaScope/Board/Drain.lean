import FpgaScope.Board.Armed
import FpgaScope.Capture.BufData

/-! The script from `DONE` on. The capture stands still, so the registers and the lanes of the
buffer come out as they were when it was done, and two lanes make a word. -/

namespace FpgaScope

open Clocked Capture Console

variable {p : Params} {c₀ : Capture p} {inp : ℕ → CaptureIn p} {b : BusSignals (BitVec 32) (BitVec 32)}

/-- Armed in cycle `a`, done in cycle `m`, and left alone since. -/
structure Holding (c₀ : Capture p) (inp : ℕ → CaptureIn p) (a m n : ℕ) : Prop where
  armed : Armed c₀ inp a n
  one : (run c₀ inp a).csr.windowsQ = 1
  after : a < m
  before : m < n
  done : stAt c₀ inp m = .done

namespace Holding

variable {a m n : ℕ}

theorem parked (h : Holding c₀ inp a m n) : (run c₀ inp m).core.Parked (run c₀ inp n).core :=
  (h.armed.parked h.one h.after h.before.le h.done).2

theorem step (h : Holding c₀ inp a m n) (hx : (inp n).bus.wrCtrl = false) : Holding c₀ inp a m (n + 1) :=
  ⟨h.armed.step hx, h.one, h.after, Nat.lt_succ_of_lt h.before, h.done⟩

/-- A register of the finished capture. -/
theorem register (w : OnWindow c₀ inp b) {x : BitVec 32} (hsel : selScope x = true) {f : Capture p → ℕ}
    (hf : ∀ n d, ((run c₀ inp n).csr.rdata { addr := regWord x, wdata := d, write := false, read := true }
      (run c₀ inp n).core).toNat = f (run c₀ inp n))
    (hpark : ∀ n, (run c₀ inp m).core.Parked (run c₀ inp n).core → f (run c₀ inp n) = f (run c₀ inp m)) :
    Triple b (Holding c₀ inp a m) (rd32 x) fun v n => v = f (run c₀ inp m) ∧ Holding c₀ inp a m n := by
  intro t t' v hP hplay
  obtain ⟨⟨u, d, hu, hv⟩, hnow⟩ := w.rd32 (I := Holding c₀ inp a m) hsel (fun n h hx => h.step (w.wrCtrl_off fun y hy => by
    rw [hx y hy]
    rfl)) t t' v hP hplay
  exact ⟨by rw [hv, hf, hpark u hu.parked], hnow⟩

end Holding

/-! ### The buffer -/

/-- The drain pointer was reset in cycle `r`, and has only been read from since. -/
structure Rewound (c₀ : Capture p) (inp : ℕ → CaptureIn p) (a m r n : ℕ) : Prop where
  hold : Holding c₀ inp a m n
  start : m < r
  rewind : (inp r).bus.bufReset = true
  kept : ∀ v, r < v → v < n → (inp v).bus.softRst = false ∧ (inp v).bus.bufReset = false

/-- And `i` lanes have been read, none of them in the last cycle; right after the rewind the RAM is
given a cycle. -/
structure Drawn (c₀ : Capture p) (inp : ℕ → CaptureIn p) (a m r i n : ℕ) : Prop where
  rewound : Rewound c₀ inp a m r n
  count : ∃ k, n = r + 1 + k ∧ popCount inp r k = i ∧ (∀ j, k = j + 1 → popCount inp r j = i) ∧
    (k = 0 → (inp n).bus.read = false)

namespace Rewound

variable {a m r i n : ℕ}

theorem draining (h : Rewound c₀ inp a m r n) : Draining c₀ inp r n where
  rewind := by rw [h.rewind, Bool.or_true]
  kept := h.kept
  frozen v h₁ h₂ := by
    have hstart := h.start
    have hafter := h.hold.after
    have hv : Holding c₀ inp a m v :=
      ⟨h.hold.armed.restrict (by omega) h₂, h.hold.one, hafter, by omega, h.hold.done⟩
    rw [hv.parked.buf, h.hold.parked.buf]

theorem step (h : Rewound c₀ inp a m r n) (hctrl : (inp n).bus.wrCtrl = false) (hreset : (inp n).bus.bufReset = false) :
    Rewound c₀ inp a m r (n + 1) where
  hold := h.hold.step hctrl
  start := h.start
  rewind := h.rewind
  kept v h₁ h₂ := by
    rcases Nat.lt_succ_iff_lt_or_eq.mp h₂ with hlt | rfl
    · exact h.kept v h₁ hlt
    · exact ⟨CsrBus.softRst_off hctrl, hreset⟩

/-- No write moves the pointer back. -/
theorem unwritten (h : Rewound c₀ inp a m r n) (hwrite : (inp n).bus.write = false) :
    Rewound c₀ inp a m r (n + 1) :=
  h.step (by rw [CsrBus.wrCtrl, hwrite, Bool.false_and]) (by simp [CsrBus.bufReset, hwrite])

theorem laneAt_eq (h : Rewound c₀ inp a m r n) (i : ℕ) : laneAt (run c₀ inp n).core i = laneAt (run c₀ inp m).core i := by
  rw [laneAt, laneAt, bufAt_mod, bufAt_mod, h.hold.parked.buf]

end Rewound

namespace Drawn

variable {a m r i n : ℕ}

/-- Right after a rewind. -/
theorem begins (h : Rewound c₀ inp a m r (r + 1)) (hread : (inp (r + 1)).bus.read = false) :
    Drawn c₀ inp a m r 0 (r + 1) := ⟨h, 0, rfl, rfl, fun _ hj => absurd hj.symm (Nat.succ_ne_zero _), fun _ => hread⟩

variable (w : OnWindow c₀ inp b)
include w

/-- A cycle without an access. -/
theorem quiet (h : Drawn c₀ inp a m r i n) (hx : b.issued n = none) : Drawn c₀ inp a m r i (n + 1) := by
  obtain ⟨hwrite, hread⟩ := w.quiet n hx
  obtain ⟨k, rfl, hk, -⟩ := h.count
  have hpop : (inp (r + 1 + k)).bus.pop = false := by rw [CsrBus.pop, hread, Bool.false_and]
  refine ⟨h.rewound.unwritten hwrite, k + 1, by omega, ?_, fun j hj => ?_, fun hk => absurd hk (Nat.succ_ne_zero _)⟩
  · rw [popCount, hpop, hk]
    rfl
  · rw [← Nat.succ.inj hj, hk]

/-- A read of the next lane, and the cycle of its data. -/
theorem read (h : Drawn c₀ inp a m r i n) (hx : b.issued n = some (.read sBufData)) {v : ℕ} {x : BitVec 32}
    (hresp : Responds b n v x) : x = laneAt (run c₀ inp m).core i ∧ Drawn c₀ inp a m r (i + 1) (v + 1) := by
  obtain ⟨d, hd⟩ := w.read n sBufData hx
  obtain ⟨rfl, hvalue⟩ := w.answer hx hresp
  have hnext := hresp.pause (n + 1) (Nat.lt_succ_self n) le_rfl
  obtain ⟨k, hn, hk, hlast, hfirst⟩ := h.count
  have hread : (inp n).bus.read = true := by rw [hd]; rfl
  obtain ⟨j, rfl⟩ : ∃ j, k = j + 1 := Nat.exists_eq_succ_of_ne_zero fun hzero => by
    rw [hfirst hzero] at hread
    cases hread
  have hj := hlast j rfl
  obtain rfl : n = r + 2 + j := by omega
  have hpop : (inp (r + 2 + j)).bus.pop = true := by rw [hd]; rfl
  have hcount : popCount inp r (j + 2) = i + 1 := by
    rw [popCount, hk, show r + 1 + (j + 1) = r + 2 + j by omega, hpop]
    rfl
  have hafter : Drawn c₀ inp a m r (i + 1) (r + 2 + j + 1 + 1) := by
    obtain ⟨hwrite, hquiet⟩ := w.quiet _ hnext
    have hno : (inp (r + 2 + j + 1)).bus.pop = false := by rw [CsrBus.pop, hquiet, Bool.false_and]
    refine ⟨(h.rewound.unwritten (by rw [hd])).unwritten hwrite, j + 3, by omega, ?_, fun l hl => ?_,
      fun hk => absurd hk (Nat.succ_ne_zero _)⟩
    · rw [popCount, hcount, show r + 1 + (j + 2) = r + 2 + j + 1 by omega, hno]
      rfl
    · rw [← Nat.succ.inj hl, hcount]
  refine ⟨?_, hafter⟩
  rw [hvalue (by decide), pop_rdata h.rewound.draining hpop, hj, hk, ← h.rewound.laneAt_eq]
  rfl

end Drawn

section
variable (w : OnWindow c₀ inp b) {a m : ℕ}
include w

/-- The write to `BUF_CTRL`. -/
theorem rewinds : Triple b (Holding c₀ inp a m) (wr32 sBufCtrl 0x1) fun _ n => ∃ r, Drawn c₀ inp a m r 0 n := by
  refine .write (fun t u h hacc => ?_) (.done fun n h => h)
  have hcalm : ∀ n, Holding c₀ inp a m n → (∀ x, b.issued n = some x → ctrlWrite x = false) →
      Holding c₀ inp a m (n + 1) := fun n hn hx => hn.step (w.wrCtrl_off hx)
  obtain ⟨hnow, -⟩ := hacc.carry hcalm h
  have hbus := w.write u sBufCtrl 0x1 hacc.issued
  have hfirst : Rewound c₀ inp a m u (u + 1) :=
    ⟨hnow.step (by rw [hbus]; rfl), hnow.before, by rw [hbus]; rfl, fun v h₁ h₂ => by omega⟩
  exact ⟨u, .begins hfirst (w.quiet (u + 1) (w.gap u 0x1 hacc.issued)).2⟩

/-- One lane. -/
theorem draws_lane (r i : ℕ) : Triple b (Drawn c₀ inp a m r i) (rd32 sBufData) fun v n =>
    v = (laneAt (run c₀ inp m).core i).toNat ∧ Drawn c₀ inp a m r (i + 1) n := by
  refine .read (M := fun d n => d.toNat = (laneAt (run c₀ inp m).core i).toNat ∧ Drawn c₀ inp a m r (i + 1) n)
    (fun t u v x h hacc hresp => ?_) fun d => .done fun n h => h
  have hnow : Drawn c₀ inp a m r i u := paused hacc.pause (fun n hn hx => hn.quiet w hx) hacc.le h
  obtain ⟨hdata, hnext⟩ := hnow.read w hacc.issued hresp
  exact ⟨congrArg BitVec.toNat hdata, hnext⟩

omit w in
/-- Two lanes are a word of 33 bits. -/
theorem word_lanes (hW : p.storeW = 33) (core : Core p.storeW p.depthLog2 p.tsW) (j : ℕ) :
    (laneAt core (2 * j)).toNat ||| ((laneAt core (2 * j + 1)).toNat &&& 0x1) <<< 32 =
      (Core.bufAt core (j % Core.depth p.depthLog2)).toNat := by
  have hlanes : p.bufLanes = 2 := by rw [Params.bufLanes, hW]
  have hlt : (Core.bufAt core (j % Core.depth p.depthLog2)).toNat < 2 ^ 33 := by
    rw [← hW]
    exact BitVec.isLt _
  rw [laneAt, laneAt, hlanes, show 2 * j / 2 = j by omega, show (2 * j + 1) / 2 = j by omega,
    show 2 * j % 2 = 0 by omega, show (2 * j + 1) % 2 = 1 by omega, getLane, getLane,
    BitVec.extractLsb'_toNat, BitVec.extractLsb'_toNat, Nat.and_one_is_mod, Nat.or_comm, ← Nat.shiftLeft_add_eq_or_of_lt,
    Nat.shiftLeft_eq, Nat.shiftRight_eq_div_pow, Nat.shiftRight_eq_div_pow]
  · omega
  · exact Nat.mod_lt _ (by norm_num)

/-- The loop over the words. -/
theorem draws (hW : p.storeW = 33) (r : ℕ) (i j : ℕ) : Triple b (Drawn c₀ inp a m r (2 * j)) (drain i) fun words n =>
    words = (List.range i).map (fun k => (Core.bufAt (run c₀ inp m).core ((j + k) % Core.depth p.depthLog2)).toNat) ∧
      Drawn c₀ inp a m r (2 * (j + i)) n := by
  induction i generalizing j with
  | zero => exact .done fun n h => ⟨rfl, h⟩
  | succ i ih =>
    refine .bind (draws_lane w r (2 * j)) fun lane0 => .of_and fun h0 => ?_
    refine .bind (draws_lane w r (2 * j + 1)) fun lane1 => .of_and fun h1 => ?_
    refine .bind (ih (j + 1)) fun words => .of_and fun hwords => .done fun n h => ⟨?_, ?_⟩
    · rw [h0, h1, hwords, word_lanes hW, List.range_succ_eq_map, List.map_cons, List.map_map]
      congr 1
      refine List.map_congr_left fun k _ => ?_
      rw [Function.comp_apply, show j + 1 + k = j + (k + 1) by omega]
    · rwa [show j + (i + 1) = j + 1 + i by omega]

end

/-! ### The dump -/

/-- What the script writes of a finished capture. -/
def headerOf (core : Core p.storeW p.depthLog2 p.tsW) (pretrig : ℤ) : Header where
  rle := 1
  wrapped := core.wrapped.toNat
  trigIndex := core.trigIndex.toNat
  pretrig := pretrig
  depth := p.depth
  tsAtTrig := core.tsAtTrig.toNat

theorem hwcfg_fields (hr : p.rleEn = true) : ((Csr.hwcfgWord p).toNat >>> 18) &&& 1 = 1 ∧
    1 <<< (((Csr.hwcfgWord p).toNat >>> 10) &&& 0xf) = p.depth := by
  have hdepth := p.depthLog2_le
  have hprobe := p.probeW_le
  have hword : (Csr.hwcfgWord p).toNat = 2 ^ 18 + numCmp * 2 ^ 14 + p.depthLog2 * 2 ^ 10 + p.probeW := by
    unfold Csr.hwcfgWord
    simp only [Host.append_toNat, BitVec.toNat_ofBool, BitVec.toNat_ofNat, hr, Bool.toNat_true]
    rw [Nat.mod_eq_of_lt (show p.depthLog2 < 2 ^ 4 by omega), Nat.mod_eq_of_lt (show p.probeW < 2 ^ 10 by omega)]
    norm_num [numCmp]
    ring
  have hfield : ((Csr.hwcfgWord p).toNat >>> 10) &&& 0xf = p.depthLog2 := by
    rw [show 0xf = 2 ^ 4 - 1 from rfl, Nat.and_two_pow_sub_one_eq_mod, Nat.shiftRight_eq_div_pow, hword, numCmp]
    omega
  constructor
  · rw [Nat.and_one_is_mod, Nat.shiftRight_eq_div_pow, hword, numCmp]
    omega
  · rw [hfield, Nat.one_shiftLeft]
    rfl

theorem ts_halves (ts : BitVec p.tsW) :
    ((ts.extractLsb' 32 (p.tsW - 32)).setWidth 32).toNat <<< 32 ||| (ts.setWidth 32).toNat = ts.toNat := by
  have hle := p.le_tsW
  have hge := p.tsW_le
  have hhi : ts.toNat / 2 ^ 32 < 2 ^ (p.tsW - 32) := by
    rw [Nat.div_lt_iff_lt_mul (by norm_num), ← pow_add, Nat.sub_add_cancel (by omega)]
    exact ts.isLt
  have hfit : 2 ^ (p.tsW - 32) ≤ 2 ^ 32 := Nat.pow_le_pow_right (by norm_num) (by omega)
  rw [BitVec.toNat_setWidth, BitVec.toNat_setWidth, BitVec.extractLsb'_toNat, Nat.shiftRight_eq_div_pow,
    Nat.mod_eq_of_lt hhi, Nat.mod_eq_of_lt (hhi.trans_le hfit),
    ← Nat.shiftLeft_add_eq_or_of_lt (Nat.mod_lt _ (by norm_num)), Nat.shiftLeft_eq]
  omega

/-- The dump of a finished capture. -/
theorem dumps (w : OnWindow c₀ inp b) (hW : p.storeW = 33) (hr : p.rleEn = true) {a m : ℕ} (pretrig : ℤ) :
    Triple b (Holding c₀ inp a m)
      (dump pretrig (Csr.hwcfgWord p).toNat p.depth ((run c₀ inp m).csr.statusWord (run c₀ inp m).core).toNat) fun r n =>
        r = .dumped (dumpText (headerOf (run c₀ inp m).core pretrig) (Host.wholeBuffer (run c₀ inp m).core)) ∧
          Holding c₀ inp a m n := by
  have hindex : ∀ n d, ((run c₀ inp n).csr.rdata { addr := regWord sTrigIdx, wdata := d, write := false, read := true }
      (run c₀ inp n).core).toNat = (run c₀ inp n).core.trigIndex.toNat := fun n d => by
    change ((run c₀ inp n).core.trigIndex.setWidth 32).toNat = _
    have hle := p.depthLog2_le
    rw [BitVec.toNat_setWidth, Nat.mod_eq_of_lt]
    exact (BitVec.isLt _).trans_le (Nat.pow_le_pow_right (by norm_num) (by omega))
  have htrig := Holding.register w (a := a) (m := m) (x := sTrigIdx) (by decide)
    (f := fun c => c.core.trigIndex.toNat) hindex fun n h => by rw [h.trigIndex]
  have hlo := Holding.register w (a := a) (m := m) (x := sTstrigLo) (by decide)
    (f := fun c => (c.core.tsAtTrig.setWidth 32).toNat) (fun n d => rfl) fun n h => by rw [h.tsAtTrig]
  have hhi := Holding.register w (a := a) (m := m) (x := sTstrigHi) (by decide)
    (f := fun c => ((c.core.tsAtTrig.extractLsb' 32 (p.tsW - 32)).setWidth 32).toNat) (fun n d => rfl)
    fun n h => by rw [h.tsAtTrig]
  refine .bind htrig fun trigIdx => .of_and fun ht => ?_
  refine .bind hlo fun tsLo => .of_and fun hl => ?_
  refine .bind hhi fun tsHi => .of_and fun hh => ?_
  refine .bind (rewinds w) fun _ => .of_exists fun r => ?_
  refine .bind (draws w hW r p.depth 0) fun words => .of_and fun hwords => .done fun n h => ⟨?_, h.rewound.hold⟩
  have hbuffer : words = Host.wholeBuffer (run c₀ inp m).core := by
    rw [hwords, Host.wholeBuffer]
    refine List.map_congr_left fun i _ => ?_
    rw [Nat.zero_add, bufAt_mod]
  rw [hbuffer, (hwcfg_fields hr).1, statusWord_wrapped, ht, hl, hh, ts_halves]
  rfl

end FpgaScope
