import FpgaScope.Engine.Frames
import FpgaScope.Engine.Lanes

/-! A `DRAIN` as a flow: the header fields are gathered, the header frame goes out with
the metadata of every window, and the buffer follows chunk by chunk, word by word, lane
by lane. The loops are nested as the counters of the engine are. -/

namespace FpgaScope.Drain

open Protocol Host

variable {p : Params} {ρ : ℕ → BitVec 32} {d : Drain p} {j : ℕ}

/-! ### Header -/

/-- The header fields, one read after the other. -/
theorem gather_flow (h : d.st = .dRdStatus) : ∃ d', Flow ρ d j [] gatherOps d' (j + 5) ∧
    d'.st = .rSync0 ∧ d'.plState = .dFlags ∧ d'.afterCrc = .dBufrst ∧
    d'.tx.tCmd = scopeOpDrain ∧ d'.tx.tLen = 10 + (0#7 ++ (ρ j).extractLsb' 8 8 ++ 0#1) ∧
    d'.job = { d.job with
      statusQ := ρ j, tiQ := ρ (j + 1), tslQ := ρ (j + 2), tshQ := ρ (j + 3), rleQ := ρ (j + 4)
      wIdx := 0 } := by
  let d₁ := (d.startOp (.rd csrStatus) .dRdTi).afterOp (ρ j)
  let d₂ := ({ d₁ with job.statusQ := ρ j }.startRd csrTrigIndex .dRdTsl).afterOp (ρ (j + 1))
  let d₃ := ({ d₂ with job.tiQ := ρ (j + 1) }.startRd csrTstrigLo .dRdTsh).afterOp (ρ (j + 2))
  let d₄ := ({ d₃ with job.tslQ := ρ (j + 2) }.startRd csrTstrigHi .dRdRle).afterOp (ρ (j + 3))
  let d₅ := ({ d₄ with job.tshQ := ρ (j + 3) }.startRd csrRleCtrl .dHdr).afterOp (ρ (j + 4))
  have h₁ : Flow ρ d j [] [.rd csrStatus] d₁ (j + 1) :=
    .call (by rw [h]; trivial) (by rw [move, step, h]) rfl
  have h₂ : Flow ρ d₁ (j + 1) [] [.rd csrTrigIndex] d₂ (j + 2) :=
    .call (by exact trivial) rfl rfl
  have h₃ : Flow ρ d₂ (j + 2) [] [.rd csrTstrigLo] d₃ (j + 3) :=
    .call (by exact trivial) rfl rfl
  have h₄ : Flow ρ d₃ (j + 3) [] [.rd csrTstrigHi] d₄ (j + 4) :=
    .call (by exact trivial) rfl rfl
  have h₅ : Flow ρ d₄ (j + 4) [] [.rd csrRleCtrl] d₅ (j + 5) :=
    .call (by exact trivial) rfl rfl
  have h₆ : Flow ρ d₅ (j + 5) [] [] (d₅.move 0) (j + 5) := .quiet (by exact trivial) rfl
  exact ⟨_, ((((h₁.trans h₂).trans h₃).trans h₄).trans h₅).trans h₆, rfl, rfl, rfl, rfl, rfl, rfl⟩

theorem byte_setWidth (x : BitVec 32) :
    hi (x.setWidth 16) = x.extractLsb' 8 8 ∧ lo (x.setWidth 16) = x.extractLsb' 0 8 := by
  constructor
  · apply BitVec.eq_of_getLsbD_eq
    intro i hi'
    simp [hi, hi', show 8 + i < 16 by omega]
  · apply BitVec.eq_of_getLsbD_eq
    intro i hi'
    simp [lo, hi', show i < 16 by omega]

/-- The six timestamp bytes; the counter runs from 5 down to 0. -/
theorem ts_pays (h : d.st = .dTs) (ht : d.job.tsIdx = 5) : ∃ d', Pays ρ d j
      (be16 (d.job.tshQ.setWidth 16) ++ be32 d.job.tslQ) [] d' j ∧
    d'.st = .dWsel ∧ d'.job = { d.job with tsIdx := 0 } := by
  let at' : ℕ → DrainJob p := fun i => { d.job with tsIdx := BitVec.ofNat 3 (5 - i) }
  let I : ℕ → Drain p → Prop := fun i e =>
    e.st = (if i < 6 then .dTs else .dWsel) ∧ e.job = at' i
  have hturn : ∀ i < 6, ∀ e, I i e → ∃ e', Pays ρ e j [tsByte (at' i)] [] e' j ∧ I (i + 1) e' := by
    rintro i hi e ⟨hst, hjob⟩
    rw [if_pos hi] at hst
    have hm : e.move (ρ j) = { e with job := at' (i + 1) }.sendByte (tsByte (at' i)) true
        (if i + 1 < 6 then .dTs else .dWsel) := by
      rw [move, step, hst]
      dsimp only
      rw [hjob]
      interval_cases i <;> simp [at']
    exact ⟨_, .byte (by rw [hst]; trivial) hm rfl rfl, rfl, rfl⟩
  obtain ⟨e, hp, hst, hjob⟩ := (Pays.composes ρ).loop I _ (fun _ => []) (fun _ => j) hturn
    ⟨h, by change d.job = { d.job with tsIdx := 5 }; rw [← ht]⟩
  refine ⟨e, ?_, hst, hjob⟩
  rw [flatMap_nil_range] at hp
  have hbytes : ((List.range 6).flatMap fun i => [tsByte (at' i)]) =
      be16 (d.job.tshQ.setWidth 16) ++ be32 d.job.tslQ := by
    rw [be16, (byte_setWidth _).1, (byte_setWidth _).2]
    simp [List.range_succ, at', tsByte, be32, beByte]
  rwa [hbytes] at hp

/-- The ten header bytes in front of the windows. -/
theorem header_pays (h : d.st = .dFlags) : ∃ d', Pays ρ d j
      ([drainFlags p d.job.statusQ, d.wDone] ++ be16 (d.job.tiQ.setWidth 16) ++
        be16 (d.job.tshQ.setWidth 16) ++ be32 d.job.tslQ) [] d' j ∧
    d'.st = .dWsel ∧ d'.job = { d.job with tsIdx := 0 } := by
  let d₁ := (d.sendByte (drainFlags p d.job.statusQ) true .dWd).afterSend
  let d₂ := (d₁.sendByte d.wDone true .dTih).afterSend
  let d₃ := (d₂.sendByte (d.job.tiQ.extractLsb' 8 8) true .dTil).afterSend
  let d₄ := ({ d₃ with job.tsIdx := 5 }.sendByte (d.job.tiQ.extractLsb' 0 8) true .dTs).afterSend
  have h₁ : Pays ρ d j [drainFlags p d.job.statusQ] [] d₁ j :=
    .byte (by rw [h]; trivial) (by rw [move, step, h]; rfl) rfl rfl
  have h₂ : Pays ρ d₁ j [d.wDone] [] d₂ j := .byte (by exact trivial) rfl rfl rfl
  have h₃ : Pays ρ d₂ j [d.job.tiQ.extractLsb' 8 8] [] d₃ j := .byte (by exact trivial) rfl rfl rfl
  have h₄ : Pays ρ d₃ j [d.job.tiQ.extractLsb' 0 8] [] d₄ j := .byte (by exact trivial) rfl rfl rfl
  obtain ⟨e, h₅, hst, hjob⟩ := ts_pays (ρ := ρ) (j := j) (d := d₄) rfl rfl
  refine ⟨e, ?_, hst, hjob⟩
  rw [List.append_assoc _ (be16 (d.job.tshQ.setWidth 16)), be16, (byte_setWidth _).1,
    (byte_setWidth _).2]
  exact (((h₁.trans h₂).trans h₃).trans h₄).trans h₅

/-- The metadata of one window. -/
theorem meta_pays {w : ℕ} (h : d.st = .dWsel) (hw : d.job.wIdx = BitVec.ofNat 8 w)
    (hlt : w < d.wDone.toNat) : ∃ d', Pays ρ d j (be16 (wmeta16 p (ρ (j + 1)))) (metaOps w) d' (j + 2) ∧
    d'.st = .dWsel ∧ d'.job = { d.job with wIdx := BitVec.ofNat 8 (w + 1) } := by
  have hw8 : w < 2 ^ 8 := hlt.trans d.wDone.isLt
  have hnle : ¬ d.wDone ≤ d.job.wIdx := by
    rw [BitVec.le_def, hw, BitVec.toNat_ofNat, Nat.mod_eq_of_lt hw8]
    omega
  have hsel : d.job.wIdx.setWidth 32 = BitVec.ofNat 32 w := by
    apply BitVec.eq_of_toNat_eq
    rw [hw, BitVec.toNat_setWidth, BitVec.toNat_ofNat, BitVec.toNat_ofNat, Nat.mod_eq_of_lt hw8]
  let d₁ := (d.startOp (.wr csrWinSel (BitVec.ofNat 32 w)) .dWmeta).afterOp (ρ j)
  let d₂ := (d₁.startOp (.rd csrWinMeta) .dWmh).afterOp (ρ (j + 1))
  let d₃ := (d₂.sendByte (hi (wmeta16 p (ρ (j + 1)))) true .dWml).afterSend
  let d₄ := ({ d₃ with job.wIdx := d.job.wIdx + 1 }.sendByte (lo (wmeta16 p (ρ (j + 1)))) true
    .dWsel).afterSend
  have h₁ : Pays ρ d j [] [.wr csrWinSel (BitVec.ofNat 32 w)] d₁ (j + 1) := by
    refine .call (by rw [h]; trivial) ?_ rfl rfl
    rw [move, step, h]
    dsimp only
    rw [if_neg hnle, hsel]
  have h₂ : Pays ρ d₁ (j + 1) [] [.rd csrWinMeta] d₂ (j + 2) := .call (by exact trivial) rfl rfl rfl
  have h₃ : Pays ρ d₂ (j + 2) [hi (wmeta16 p (ρ (j + 1)))] [] d₃ (j + 2) :=
    .byte (by exact trivial) rfl rfl rfl
  have h₄ : Pays ρ d₃ (j + 2) [lo (wmeta16 p (ρ (j + 1)))] [] d₄ (j + 2) :=
    .byte (by exact trivial) rfl rfl rfl
  refine ⟨d₄, ((h₁.trans h₂).trans h₃).trans h₄, rfl, ?_⟩
  change { d.job with wIdx := d.job.wIdx + 1 } = _
  rw [hw, BitVec.ofNat_add]
  rfl

/-- The metadata of all windows. -/
theorem metas_pays (h : d.st = .dWsel) (hw : d.job.wIdx = 0) : ∃ d', Pays ρ d j
      ((List.range d.wDone.toNat).flatMap fun w => be16 (wmeta16 p (ρ (j + (2 * w + 1)))))
      ((List.range d.wDone.toNat).flatMap metaOps) d' (j + 2 * d.wDone.toNat) ∧ d'.st = .rCrch := by
  let I : ℕ → Drain p → Prop := fun w e =>
    e.st = .dWsel ∧ e.job.wIdx = BitVec.ofNat 8 w ∧ e.wDone = d.wDone
  have hturn : ∀ w < d.wDone.toNat, ∀ e, I w e →
      ∃ e', Pays ρ e (j + 2 * w) (be16 (wmeta16 p (ρ (j + (2 * w + 1))))) (metaOps w) e'
        (j + 2 * (w + 1)) ∧ I (w + 1) e' := by
    rintro w hlt e ⟨hst, hidx, hwd⟩
    obtain ⟨e', hp, hst', hjob⟩ := meta_pays (ρ := ρ) (j := j + 2 * w) hst hidx (by rw [hwd]; exact hlt)
    exact ⟨e', hp, hst', by rw [hjob], by rw [wDone, hjob]; exact hwd⟩
  obtain ⟨e, hp, hst, hidx, hwd⟩ := (Pays.composes ρ).loop I _ _ (fun w => j + 2 * w) hturn ⟨h, hw, rfl⟩
  have hend : Pays ρ e (j + 2 * d.wDone.toNat) [] [] { e with st := .rCrch }
      (j + 2 * d.wDone.toNat) := by
    refine .quiet (by rw [hst]; trivial) ?_ rfl rfl
    rw [move, step, hst]
    dsimp only
    rw [if_pos (by rw [hidx, hwd, BitVec.ofNat_toNat, BitVec.setWidth_eq]; exact BitVec.le_refl _)]
  have hall := hp.trans hend
  rw [List.append_nil, List.append_nil] at hall
  exact ⟨_, hall, rfl⟩

theorem drainHeader_length (p : Params) (reply : ℕ → BitVec 32) :
    (drainHeader p reply).length = 10 + 2 * windowsOf (reply 0) := by
  simp only [drainHeader, be16, be32, List.length_append, List.length_cons, List.length_nil,
    List.length_flatMap, List.map_const', List.length_range, List.sum_replicate_nat]
  omega

theorem headerLen_eq (status : BitVec 32) : (10 + (0#7 ++ status.extractLsb' 8 8 ++ 0#1) : BitVec 16) =
    BitVec.ofNat 16 (10 + 2 * windowsOf status) := by
  have hlt := (status.extractLsb' 8 8).isLt
  apply BitVec.eq_of_toNat_eq
  rw [windowsOf, BitVec.toNat_add, BitVec.toNat_append, BitVec.toNat_append]
  simp only [BitVec.toNat_ofNat, Nat.zero_mod, Nat.or_zero, Nat.shiftLeft_eq, Nat.zero_mul,
    Nat.zero_or]
  change (10 + _) % 2 ^ 16 = _
  omega

/-- The header frame. -/
theorem header_flow (h : d.st = .dRdStatus) : ∃ d', Flow ρ d j
      (frameBytes scopeOpDrain (drainHeader p fun k => ρ (j + k)))
      (gatherOps ++ (List.range (windowsOf (ρ j))).flatMap metaOps) d'
      (j + 5 + 2 * windowsOf (ρ j)) ∧ d'.st = .dBufrst := by
  obtain ⟨d₁, hf₁, hst₁, hpl₁, ha₁, hcmd₁, hlen₁, hjob₁⟩ := gather_flow (ρ := ρ) (j := j) h
  have hl : (drainHeader p fun k => ρ (j + k)).length = 10 + 2 * windowsOf (ρ j) :=
    drainHeader_length p fun k => ρ (j + k)
  have hW : windowsOf (ρ j) < 2 ^ 8 := ((ρ j).extractLsb' 8 8).isLt
  have hpay : ∀ e : Drain p, e.st = d₁.plState → e.rx = { d₁.rx with pidx := 0 } → e.job = d₁.job →
      ∃ e', Pays ρ e (j + 5) (drainHeader p fun k => ρ (j + k))
        ((List.range (windowsOf (ρ j))).flatMap metaOps) e' (j + 5 + 2 * windowsOf (ρ j)) ∧
        e'.st = .rCrch ∧ True := by
    intro e hst _ hjob
    obtain ⟨e₁, hp₁, hst₁, hjob₁'⟩ := header_pays (ρ := ρ) (j := j + 5) (hst.trans hpl₁)
    have hwd₀ : e.wDone = (ρ j).extractLsb' 8 8 := by rw [wDone, hjob, hjob₁]
    have hwd : e₁.wDone = (ρ j).extractLsb' 8 8 := by rw [wDone, hjob₁', hjob, hjob₁]
    obtain ⟨e₂, hp₂, hst₂⟩ := metas_pays (ρ := ρ) (j := j + 5) hst₁ (by rw [hjob₁', hjob, hjob₁])
    have hall := hp₁.trans hp₂
    rw [hjob, hjob₁, hwd, hwd₀, List.nil_append] at hall
    refine ⟨e₂, ?_, hst₂, trivial⟩
    simp only [Nat.add_assoc j 5] at hall ⊢
    exact hall
  obtain ⟨d₂, hf₂, hst₂, -⟩ := frame_flow (fun _ => True) hst₁ (by rw [hlen₁, hl, headerLen_eq])
    (by rw [hl]; omega) hpay
  rw [hcmd₁] at hf₂
  exact ⟨d₂, hf₁.trans hf₂, hst₂.trans ha₁⟩

/-! ### One stored word -/

theorem flatMap_const_range {α : Type*} (n m : ℕ) (x : α) :
    ((List.range n).flatMap fun _ => List.replicate m x) = List.replicate (n * m) x := by
  induction n with
  | zero => simp
  | succ n ih =>
    rw [List.range_succ, List.flatMap_append, ih, List.flatMap_singleton, List.replicate_append_replicate,
      Nat.succ_mul]

theorem bufLanes_le (p : Params) : p.bufLanes ≤ 17 := by
  have := p.storeW_le
  unfold Params.bufLanes
  omega

theorem nb_le (p : Params) : p.nb ≤ 65 := by
  have := p.storeW_le
  unfold Params.nb
  omega

/-- The lane buffer after the lanes of a word: slot `k` holds the last reply written there. -/
def Filled (p : Params) (buf : BitVec p.bufPadW) (l : ℕ) (lane : ℕ → BitVec 32) : Prop :=
  ∀ k < 16, k < l → getLane buf k = lane (writer l k)

theorem Filled.step {buf : BitVec p.bufPadW} {l : ℕ} {lane : ℕ → BitVec 32} (h : Filled p buf l lane)
    (hl : l < p.bufLanes) : Filled p (setLane buf (l % 16) (lane l)) (l + 1) lane := by
  have hle := bufLanes_le p
  intro k hk hkl
  by_cases hslot : k = l % 16
  · rw [hslot, getLane_setLane_same _ _ (by unfold Params.bufPadW; omega)]
    congr 1
    unfold writer
    split <;> omega
  · rw [getLane_setLane_other _ _ hslot, h k hk (by omega)]
    congr 1
    unfold writer
    split <;> split <;> omega

/-- All lanes of a word are read into the lane buffer. -/
theorem lanes_pays (h : d.st = .dLane) (hq : d.job.laneQ = 0) : ∃ d', Pays ρ d j []
      (List.replicate p.bufLanes (.rd csrBufData)) d' (j + p.bufLanes) ∧ d'.st = .dSbyte ∧
    d'.job.bidxQ = 0 ∧ d'.job.sampQ = d.job.sampQ ∧ d'.job.chunkQ = d.job.chunkQ ∧
    Filled p d'.job.laneBuf p.bufLanes fun l => ρ (j + l) := by
  have hle := bufLanes_le p
  let I : ℕ → Drain p → Prop := fun l e => e.st = .dLane ∧ e.job.laneQ = BitVec.ofNat 8 l ∧
    e.job.sampQ = d.job.sampQ ∧ e.job.chunkQ = d.job.chunkQ ∧
    Filled p e.job.laneBuf l fun l => ρ (j + l)
  have hturn : ∀ l < p.bufLanes, ∀ e, I l e →
      ∃ e', Pays ρ e (j + l) [] [CsrOp.rd csrBufData] e' (j + (l + 1)) ∧ I (l + 1) e' := by
    rintro l hl e ⟨hst, hlq, hs, hc, hfill⟩
    let e₁ := (e.startOp (.rd csrBufData) .dNext).afterOp (ρ (j + l))
    have h₁ : Pays ρ e (j + l) [] [.rd csrBufData] e₁ (j + (l + 1)) := by
      refine .call (by rw [hst]; trivial) ?_ rfl rfl
      rw [move, step, hst]
      dsimp only
      rw [if_neg]
      rw [hlq, BitVec.toNat_ofNat, Nat.mod_eq_of_lt (by omega)]
      omega
    have h₂ : Pays ρ e₁ (j + (l + 1)) [] [] (e₁.move 0) (j + (l + 1)) :=
      .quiet (by exact trivial) rfl rfl rfl
    have hslot : (e.job.laneQ.setWidth 4).toNat = l % 16 := by
      rw [hlq, BitVec.toNat_setWidth, BitVec.toNat_ofNat, Nat.mod_eq_of_lt (by omega : l < 2 ^ 8)]
    refine ⟨_, h₁.trans h₂, rfl, ?_, hs, hc, ?_⟩
    · change e.job.laneQ + 1 = _
      rw [hlq, BitVec.ofNat_add]
      rfl
    · change Filled p (setLane e.job.laneBuf (e.job.laneQ.setWidth 4).toNat (ρ (j + l))) _ _
      rw [hslot]
      exact hfill.step hl
  obtain ⟨e, hp, hst, hlq, hs, hc, hfill⟩ := (Pays.composes ρ).loop I _ _ (fun l => j + l) hturn
    ⟨h, hq, rfl, rfl, fun k _ hk => absurd hk (Nat.not_lt_zero k)⟩
  have hend : Pays ρ e (j + p.bufLanes) [] [] { e with job.bidxQ := 0, st := .dSbyte }
      (j + p.bufLanes) := by
    refine .quiet (by rw [hst]; trivial) ?_ rfl rfl
    rw [move, step, hst]
    dsimp only
    rw [if_pos]
    rw [hlq, BitVec.toNat_ofNat, Nat.mod_eq_of_lt (by omega)]
  have hall := hp.trans hend
  rw [flatMap_nil_range, List.append_nil, List.append_nil] at hall
  refine ⟨{ e with job.bidxQ := 0, st := .dSbyte }, ?_, rfl, rfl, hs, hc, hfill⟩
  have hops := flatMap_const_range p.bufLanes 1 (CsrOp.rd csrBufData)
  rw [Nat.mul_one] at hops
  rw [← hops]
  exact hall

/-- The bytes of the word in the lane buffer. -/
theorem bytes_pays {lane : ℕ → BitVec 32} (h : d.st = .dSbyte) (hq : d.job.bidxQ = 0)
    (hfill : Filled p d.job.laneBuf p.bufLanes lane) : ∃ d', Pays ρ d j (laneBytes p lane) [] d' j ∧
    d'.st = .dSbyte ∧ d'.job = { d.job with bidxQ := BitVec.ofNat 7 p.nb } := by
  have hnb := nb_le p
  let I : ℕ → Drain p → Prop := fun b e =>
    e.st = .dSbyte ∧ e.job = { d.job with bidxQ := BitVec.ofNat 7 b }
  have hturn : ∀ b < p.nb, ∀ e, I b e → ∃ e', Pays ρ e j
      [leByte (lane (writer p.bufLanes (b % 64 / 4))) (b % 4)] [] e' j ∧ I (b + 1) e' := by
    rintro b hb e ⟨hst, hjob⟩
    have hbyte : d.job.laneBuf.extractLsb' (8 * (b % 64)) 8 =
        leByte (lane (writer p.bufLanes (b % 64 / 4))) (b % 4) := by
      unfold Params.nb at hb
      rw [← hfill _ (by omega) (by unfold Params.bufLanes; omega), leByte_getLane _ _ (by omega)]
      congr 1
      omega
    have hm : e.move (ρ j) = { e with job := { d.job with bidxQ := BitVec.ofNat 7 (b + 1) } }.sendByte
        (leByte (lane (writer p.bufLanes (b % 64 / 4))) (b % 4)) true .dSbyte := by
      rw [move, step, hst]
      dsimp only
      rw [hjob, if_neg]
      · dsimp only
        rw [BitVec.toNat_setWidth, BitVec.toNat_ofNat, Nat.mod_mod_of_dvd _ (by decide), hbyte,
          BitVec.ofNat_add]
        rfl
      · dsimp only
        rw [BitVec.toNat_ofNat, Nat.mod_eq_of_lt (by omega)]
        omega
    exact ⟨_, .byte (by rw [hst]; trivial) hm rfl rfl, rfl, rfl⟩
  obtain ⟨e, hp, hst, hjob⟩ := (Pays.composes ρ).loop I _ (fun _ => []) (fun _ => j) hturn
    ⟨h, by rw [← show d.job.bidxQ = 0#7 from hq]⟩
  refine ⟨e, ?_, hst, hjob⟩
  rw [flatMap_nil_range, ← List.map_eq_flatMap] at hp
  exact hp

/-- A stored word, from its first lane to its last byte. -/
theorem word_pays (h : d.st = .dLane) (hq : d.job.laneQ = 0) : ∃ d', Pays ρ d j
      (laneBytes p fun l => ρ (j + l)) (List.replicate p.bufLanes (.rd csrBufData)) d'
      (j + p.bufLanes) ∧ d'.st = .dSbyte ∧ d'.job.bidxQ = BitVec.ofNat 7 p.nb ∧
    d'.job.sampQ = d.job.sampQ ∧ d'.job.chunkQ = d.job.chunkQ := by
  obtain ⟨d₁, hp₁, hst₁, hb₁, hs₁, hc₁, hfill⟩ := lanes_pays (ρ := ρ) (j := j) h hq
  obtain ⟨d₂, hp₂, hst₂, hjob₂⟩ := bytes_pays (ρ := ρ) (j := j + p.bufLanes) hst₁ hb₁ hfill
  have hall := hp₁.trans hp₂
  rw [List.nil_append, List.append_nil] at hall
  exact ⟨d₂, hall, hst₂, by rw [hjob₂], by rw [hjob₂]; exact hs₁, by rw [hjob₂]; exact hc₁⟩

/-! ### Chunks -/

theorem spf_eq (p : Params) : p.spf = 256 ∧ p.chunks * 256 = p.depth ∧ p.chunks ≤ 128 := by
  have h8 := p.le_depthLog2
  have h15 := p.depthLog2_le
  obtain ⟨k, hk⟩ := Nat.exists_eq_add_of_le h8
  have hdepth : p.depth = 256 * 2 ^ k := by rw [Params.depth, hk, pow_add]; norm_num
  have hpos : 0 < 2 ^ k := Nat.two_pow_pos k
  have hspf : p.spf = 256 := by
    rw [Params.spf, if_neg]
    omega
  have hk7 : 2 ^ k ≤ 2 ^ 7 := Nat.pow_le_pow_right (by norm_num) (by omega)
  have hchunks : p.chunks = 2 ^ k := by
    rw [Params.chunks, hspf, hdepth, Nat.mul_div_cancel_left _ (by norm_num)]
  refine ⟨hspf, ?_, ?_⟩ <;> omega

/-- After the last byte of a word comes the next word or the end of the chunk. -/
theorem word_end {s : ℕ} (h : d.st = .dSbyte) (hb : d.job.bidxQ = BitVec.ofNat 7 p.nb)
    (hs : d.job.sampQ = BitVec.ofNat 9 s) (hlt : s < p.spf) (r : BitVec 32) :
    d.move r = if p.spf ≤ s + 1 then
        { d with
          job.sampQ := d.job.sampQ + 1, job.laneQ := 0, job.chunkQ := d.job.chunkQ + 1, st := .rCrch }
      else { d with job.sampQ := d.job.sampQ + 1, job.laneQ := 0, st := .dLane } := by
  have hspf := (spf_eq p).1
  have hnb := nb_le p
  have hbidx : p.nb ≤ d.job.bidxQ.toNat := by
    rw [hb, BitVec.toNat_ofNat, Nat.mod_eq_of_lt (by omega)]
  have hsamp : d.job.sampQ.toNat = s := by
    rw [hs, BitVec.toNat_ofNat]
    exact Nat.mod_eq_of_lt (by omega)
  rw [move, step, h]
  dsimp only
  rw [if_pos hbidx, hsamp]

theorem next_word {s : ℕ} (h : d.st = .dSbyte) (hb : d.job.bidxQ = BitVec.ofNat 7 p.nb)
    (hs : d.job.sampQ = BitVec.ofNat 9 s) (hlt : s + 1 < p.spf) : ∃ d', Pays ρ d j [] [] d' j ∧
    d'.st = .dLane ∧ d'.job.laneQ = 0 ∧ d'.job.sampQ = BitVec.ofNat 9 (s + 1) ∧
    d'.job.chunkQ = d.job.chunkQ := by
  have hm := word_end h hb hs (by omega) (ρ j)
  rw [if_neg (by omega)] at hm
  refine ⟨_, .quiet (by rw [h]; trivial) hm rfl rfl, rfl, rfl, ?_, rfl⟩
  change d.job.sampQ + 1 = _
  rw [hs, BitVec.ofNat_add]
  rfl

theorem last_word {s : ℕ} (h : d.st = .dSbyte) (hb : d.job.bidxQ = BitVec.ofNat 7 p.nb)
    (hs : d.job.sampQ = BitVec.ofNat 9 s) (hlast : s + 1 = p.spf) : ∃ d', Pays ρ d j [] [] d' j ∧
    d'.st = .rCrch ∧ d'.job.chunkQ = d.job.chunkQ + 1 := by
  have hm := word_end h hb hs (by omega) (ρ j)
  rw [if_pos (by omega)] at hm
  exact ⟨_, .quiet (by rw [h]; trivial) hm rfl rfl, rfl, rfl⟩

/-- Chunk index and words of chunk `c`; the replies for the buffer start at `base`. -/
theorem chunk_pays {c base : ℕ} (h : d.st = .dChkh) (hs : d.job.sampQ = 0)
    (hc : d.job.chunkQ = BitVec.ofNat 8 c) (hlt : c < p.chunks) :
    ∃ d', Pays ρ d (base + c * p.spf * p.bufLanes)
      (be16 (BitVec.ofNat 16 c) ++ (List.range p.spf).flatMap fun s =>
        laneBytes p fun l => ρ (base + ((c * p.spf + s) * p.bufLanes + l)))
      (List.replicate (p.spf * p.bufLanes) (.rd csrBufData)) d'
      (base + (c + 1) * p.spf * p.bufLanes) ∧
    d'.st = .rCrch ∧ d'.job.chunkQ = BitVec.ofNat 8 (c + 1) := by
  obtain ⟨hspf, -, hchunks⟩ := spf_eq p
  let d₁ := (d.sendByte 0 true .dChkl).afterSend
  let d₂ := ({ d₁ with job.laneQ := 0 }.sendByte d.job.chunkQ true .dLane).afterSend
  have h₁ : Pays ρ d (base + c * p.spf * p.bufLanes) [0] [] d₁ (base + c * p.spf * p.bufLanes) :=
    .byte (by rw [h]; trivial) (by rw [move, step, h]) rfl rfl
  have h₂ : Pays ρ d₁ (base + c * p.spf * p.bufLanes) [d.job.chunkQ] [] d₂
      (base + c * p.spf * p.bufLanes) := .byte (by exact trivial) rfl rfl rfl
  have hidx : be16 (BitVec.ofNat 16 c) = [0, d.job.chunkQ] := by
    have hhi : hi (BitVec.ofNat 16 c) = 0 := by
      apply BitVec.eq_of_toNat_eq
      rw [hi, BitVec.extractLsb'_toNat, BitVec.toNat_ofNat, Nat.shiftRight_eq_div_pow]
      change _ = 0
      omega
    have hlo : lo (BitVec.ofNat 16 c) = BitVec.ofNat 8 c := by
      apply BitVec.eq_of_toNat_eq
      rw [lo, BitVec.extractLsb'_toNat, BitVec.toNat_ofNat, BitVec.toNat_ofNat, Nat.shiftRight_zero]
      omega
    rw [be16, hhi, hlo, hc]
  let I : ℕ → Drain p → Prop := fun s e =>
    (s < p.spf → e.st = .dLane ∧ e.job.laneQ = 0 ∧ e.job.sampQ = BitVec.ofNat 9 s ∧
      e.job.chunkQ = BitVec.ofNat 8 c) ∧
    (s = p.spf → e.st = .rCrch ∧ e.job.chunkQ = BitVec.ofNat 8 (c + 1))
  have hturn : ∀ s < p.spf, ∀ e, I s e → ∃ e', Pays ρ e (base + (c * p.spf + s) * p.bufLanes)
      (laneBytes p fun l => ρ (base + ((c * p.spf + s) * p.bufLanes + l)))
      (List.replicate p.bufLanes (CsrOp.rd csrBufData)) e'
      (base + (c * p.spf + (s + 1)) * p.bufLanes) ∧ I (s + 1) e' := by
    rintro s hs e ⟨hrun, -⟩
    obtain ⟨hst, hlq, hsq, hcq⟩ := hrun hs
    obtain ⟨e₁, hp₁, hst₁, hb₁, hs₁, hc₁⟩ :=
      word_pays (ρ := ρ) (j := base + (c * p.spf + s) * p.bufLanes) hst hlq
    have hnext : base + (c * p.spf + s) * p.bufLanes + p.bufLanes =
        base + (c * p.spf + (s + 1)) * p.bufLanes := by ring
    rw [hnext] at hp₁
    simp only [Nat.add_assoc base] at hp₁
    rcases Nat.lt_or_ge (s + 1) p.spf with hlt' | hge
    · obtain ⟨e₂, hp₂, hst₂, hlq₂, hs₂, hc₂⟩ := next_word (ρ := ρ)
        (j := base + (c * p.spf + (s + 1)) * p.bufLanes) hst₁ hb₁ (hs₁.trans hsq) hlt'
      have hall := hp₁.trans hp₂
      rw [List.append_nil, List.append_nil] at hall
      exact ⟨e₂, hall, fun _ => ⟨hst₂, hlq₂, hs₂, hc₂.trans (hc₁.trans hcq)⟩, fun he => by omega⟩
    · obtain ⟨e₂, hp₂, hst₂, hc₂⟩ := last_word (ρ := ρ)
        (j := base + (c * p.spf + (s + 1)) * p.bufLanes) hst₁ hb₁ (hs₁.trans hsq) (by omega)
      have hall := hp₁.trans hp₂
      rw [List.append_nil, List.append_nil] at hall
      refine ⟨e₂, hall, fun hlt' => by omega, fun _ => ⟨hst₂, ?_⟩⟩
      rw [hc₂, hc₁, hcq, BitVec.ofNat_add]
      rfl
  obtain ⟨e, hp, hend⟩ := (Pays.composes ρ).loop I _ _ (fun s => base + (c * p.spf + s) * p.bufLanes) hturn
    (d := d₂) ⟨fun _ => ⟨rfl, rfl, hs, hc⟩, fun he => by omega⟩
  obtain ⟨hst, hcq⟩ := hend.2 rfl
  refine ⟨e, ?_, hst, hcq⟩
  have hall := (h₁.trans h₂).trans hp
  rw [flatMap_const_range, List.nil_append, List.nil_append] at hall
  rw [hidx, Nat.succ_mul]
  exact hall

/-- One data frame, and back for the next chunk or to the hunt. -/
theorem chunk_flow {c base : ℕ} (h : d.st = .dDf) (hc : d.job.chunkQ = BitVec.ofNat 8 c)
    (hlt : c < p.chunks) :
    ∃ d', Flow ρ d (base + c * p.spf * p.bufLanes)
      (frameBytes scopeOpDrainData (be16 (BitVec.ofNat 16 c) ++ (List.range p.spf).flatMap fun s =>
        laneBytes p fun l => ρ (base + ((c * p.spf + s) * p.bufLanes + l))))
      (List.replicate (p.spf * p.bufLanes) (.rd csrBufData)) d'
      (base + (c + 1) * p.spf * p.bufLanes) ∧
    d'.st = (if c + 1 < p.chunks then .dDf else .hunt) ∧ d'.job.chunkQ = BitVec.ofNat 8 (c + 1) := by
  obtain ⟨hspf, -, hchunks⟩ := spf_eq p
  have hnb := nb_le p
  have hlen : (be16 (BitVec.ofNat 16 c) ++ (List.range p.spf).flatMap fun s =>
      laneBytes p fun l => ρ (base + ((c * p.spf + s) * p.bufLanes + l))).length =
        2 + p.spf * p.nb := by
    simp only [be16, List.length_append, List.length_cons, List.length_nil, List.length_flatMap,
      laneBytes_length, List.map_const', List.length_range, List.sum_replicate_nat]
  have hcq : d.job.chunkQ.toNat = c := by
    rw [hc, BitVec.toNat_ofNat]
    exact Nat.mod_eq_of_lt (by omega)
  let d₁ : Drain p := { d with
    tx.tCmd := scopeOpDrainData, tx.tLen := BitVec.ofNat 16 (2 + p.spf * p.nb), plState := .dChkh
    afterCrc := if p.chunks ≤ c + 1 then .hunt else .dDf, job.sampQ := 0, st := .rSync0 }
  have h₁ : Flow ρ d (base + c * p.spf * p.bufLanes) [] [] d₁ (base + c * p.spf * p.bufLanes) := by
    refine .quiet (by rw [h]; trivial) ?_
    rw [move, step, h]
    dsimp only
    rw [hcq]
  have hpay : ∀ e : Drain p, e.st = d₁.plState → e.rx = { d₁.rx with pidx := 0 } → e.job = d₁.job →
      ∃ e', Pays ρ e (base + c * p.spf * p.bufLanes)
        (be16 (BitVec.ofNat 16 c) ++ (List.range p.spf).flatMap fun s =>
          laneBytes p fun l => ρ (base + ((c * p.spf + s) * p.bufLanes + l)))
        (List.replicate (p.spf * p.bufLanes) (.rd csrBufData)) e'
        (base + (c + 1) * p.spf * p.bufLanes) ∧
        e'.st = .rCrch ∧ e'.job.chunkQ = BitVec.ofNat 8 (c + 1) := by
    intro e hst _ hjob
    exact chunk_pays hst (by rw [hjob]) (by rw [hjob]; exact hc) hlt
  obtain ⟨d₂, hf₂, hst₂, hc₂⟩ := frame_flow (fun job => job.chunkQ = BitVec.ofNat 8 (c + 1)) rfl
    (by rw [hlen]) (by rw [hlen, hspf]; omega) hpay
  refine ⟨d₂, h₁.trans hf₂, ?_, hc₂⟩
  rw [hst₂]
  change (if p.chunks ≤ c + 1 then DrainSt.hunt else .dDf) = _
  split <;> split <;> first | rfl | omega

/-- The whole buffer. -/
theorem data_flow (base : ℕ) (h : d.st = .dDf) (hc : d.job.chunkQ = 0) : ∃ d', Flow ρ d base
      ((List.range p.chunks).flatMap fun c => frameBytes scopeOpDrainData
        (be16 (BitVec.ofNat 16 c) ++ (List.range p.spf).flatMap fun s =>
          laneBytes p fun l => ρ (base + ((c * p.spf + s) * p.bufLanes + l))))
      (List.replicate (p.depth * p.bufLanes) (.rd csrBufData)) d' (base + p.depth * p.bufLanes) ∧
    d'.st = .hunt := by
  obtain ⟨hspf, hdepth, -⟩ := spf_eq p
  rw [← hspf] at hdepth
  have hpos : 0 < p.chunks := by
    have hd : 0 < p.depth := Nat.two_pow_pos _
    rw [← hdepth] at hd
    exact Nat.pos_of_mul_pos_right hd
  let I : ℕ → Drain p → Prop := fun c e =>
    e.st = (if c < p.chunks then .dDf else .hunt) ∧ e.job.chunkQ = BitVec.ofNat 8 c
  have hturn : ∀ c < p.chunks, ∀ e, I c e → ∃ e', Flow ρ e (base + c * p.spf * p.bufLanes)
      (frameBytes scopeOpDrainData (be16 (BitVec.ofNat 16 c) ++ (List.range p.spf).flatMap fun s =>
        laneBytes p fun l => ρ (base + ((c * p.spf + s) * p.bufLanes + l))))
      (List.replicate (p.spf * p.bufLanes) (CsrOp.rd csrBufData)) e'
      (base + (c + 1) * p.spf * p.bufLanes) ∧ I (c + 1) e' := by
    rintro c hlt e ⟨hst, hcq⟩
    rw [if_pos hlt] at hst
    exact chunk_flow hst hcq hlt
  obtain ⟨e, hf, hst, -⟩ := (Flow.composes ρ).loop I _ _ (fun c => base + c * p.spf * p.bufLanes) hturn
    ⟨by rw [if_pos hpos]; exact h, hc⟩
  rw [if_neg (Nat.lt_irrefl _)] at hst
  rw [flatMap_const_range, Nat.zero_mul, Nat.zero_mul, Nat.add_zero, ← Nat.mul_assoc, hdepth] at hf
  exact ⟨e, hf, hst⟩

theorem drainOps_length (p : Params) (reply : ℕ → BitVec 32) :
    (drainOps p reply).length = 5 + 2 * windowsOf (reply 0) + 1 + p.depth * p.bufLanes := by
  simp only [drainOps, gatherOps, metaOps, List.length_append, List.length_cons, List.length_nil,
    List.length_flatMap, List.map_const', List.length_range, List.sum_replicate_nat,
    List.length_replicate]
  omega

/-- A `DRAIN` is answered as the reference says, but for the packing of the words. -/
theorem drain_flow (h : d.st = .dRdStatus) : ∃ d', Flow ρ d j
      (drain p (laneBytes p) fun k => ρ (j + k)).sent (drain p (laneBytes p) fun k => ρ (j + k)).ops d'
      (j + (drain p (laneBytes p) fun k => ρ (j + k)).ops.length) ∧ d'.st = .hunt := by
  obtain ⟨d₁, hf₁, hst₁⟩ := header_flow (ρ := ρ) (j := j) h
  let W := windowsOf (ρ j)
  let d₂ := ({ d₁ with job.chunkQ := 0 }.startOp (.wr csrBufCtrl 1) .dDf).afterOp (ρ (j + 5 + 2 * W))
  have hf₂ : Flow ρ d₁ (j + 5 + 2 * W) [] [.wr csrBufCtrl 1] d₂ (j + 5 + 2 * W + 1) :=
    .call (by rw [hst₁]; trivial) (by rw [move, step, hst₁]) rfl
  obtain ⟨d₃, hf₃, hst₃⟩ := data_flow (ρ := ρ) (d := d₂) (j + 5 + 2 * W + 1) rfl rfl
  refine ⟨d₃, ?_, hst₃⟩
  have hidx : ∀ x, j + 5 + 2 * W + 1 + x = j + (5 + 2 * W + 1 + x) := fun x => by omega
  have hall := (hf₁.trans hf₂).trans hf₃
  simp only [hidx, List.append_nil, List.append_assoc, List.singleton_append] at hall
  change Flow ρ d j _ (drainOps p fun k => ρ (j + k)) d₃ (j + (drainOps p fun k => ρ (j + k)).length)
  rw [drainOps_length, drainOps, List.append_assoc]
  exact hall

end FpgaScope.Drain
