import FpgaScope.Link.Parked

/-! What a dump of a parked core is: the header out of its status and metadata, and every
stored word in address order. The reference answer to a `DRAIN` gives exactly this when
the replies are those of the register file. -/

namespace FpgaScope

open Protocol

variable {p : Params}

/-- All `ceil(STORE_W/8)` bytes of a stored word, least significant first. -/
def storedBytes (x : BitVec p.storeW) : List Byte := (List.range p.nb).map fun b => x.extractLsb' (8 * b) 8

/-- The low 48 bits of a timestamp, most significant byte first. -/
def ts48 (ts : BitVec p.tsW) : List Byte := (List.range 6).map fun k => ts.extractLsb' (8 * (5 - k)) 8

/-- `{wrapped, trig_index[14:0]}` out of a metadata word. -/
def windowMeta (x : BitVec (p.depthLog2 + 1)) : BitVec 16 :=
  BitVec.cons (x.getLsbD p.depthLog2) ((x.setWidth p.depthLog2).setWidth 15)

namespace Core

variable (core : Core p.storeW p.depthLog2 p.tsW)

def dumpHeader : List Byte :=
  [0#6 ++ BitVec.ofBool core.wrapped ++ BitVec.ofBool p.rleEn, core.windowsDone] ++
    be16 (core.trigIndex.setWidth 16) ++ ts48 core.tsAtTrig ++
    (List.range core.windowsDone.toNat).flatMap fun w =>
      be16 (windowMeta (core.uWinMeta.mem (BitVec.ofNat 8 w)))

def dumpData (c : ℕ) : List Byte :=
  be16 (BitVec.ofNat 16 c) ++ (List.range p.spf).flatMap fun s =>
    storedBytes (core.uBuf.mem (BitVec.ofNat p.depthLog2 (c * p.spf + s)))

/-- One header frame, then the buffer in frames of `SPF` words. -/
def dump : List Byte :=
  frameBytes scopeOpDrain core.dumpHeader ++
    (List.range p.chunks).flatMap fun c => frameBytes scopeOpDrainData (core.dumpData c)

/-- No stored word has a seventeenth lane that differs from its first. -/
def Whole : Prop := p.storeW ≤ 512 ∨ ∀ a, getLane (core.uBuf.mem a) 0 = getLane (core.uBuf.mem a) 16

end Core

namespace Capture

variable (c : Capture p)

/-! ### Header -/

theorem ts48_eq (ts : BitVec p.tsW) :
    be16 (((ts.extractLsb' 32 (p.tsW - 32)).setWidth 32).setWidth 16) ++ be32 (ts.setWidth 32) =
      ts48 ts := by
  have hle := p.le_tsW
  have hhi : ∀ k < 2, (((ts.extractLsb' 32 (p.tsW - 32)).setWidth 32).setWidth 16).extractLsb' (8 * k) 8 =
      ts.extractLsb' (8 * (k + 4)) 8 := by
    intro k hk
    apply BitVec.eq_of_getLsbD_eq
    intro i hi
    simp only [BitVec.getLsbD_extractLsb', BitVec.getLsbD_setWidth, hi, decide_true, Bool.true_and,
      show 8 * k + i < 16 by omega, show 8 * k + i < 32 by omega,
      show 32 + (8 * k + i) = 8 * (k + 4) + i by omega]
    by_cases hlt : 8 * (k + 4) + i < p.tsW
    · simp [show 8 * k + i < p.tsW - 32 by omega]
    · simp [BitVec.getLsbD_of_ge ts _ (Nat.le_of_not_lt hlt)]
  have hlo : ∀ k < 4, beByte (ts.setWidth 32) k = ts.extractLsb' (8 * (3 - k)) 8 := by
    intro k hk
    apply BitVec.eq_of_getLsbD_eq
    intro i hi
    simp only [beByte, BitVec.getLsbD_extractLsb', BitVec.getLsbD_setWidth, hi, decide_true,
      Bool.true_and, show 8 * (3 - k) + i < 32 by omega]
  have h0 := hhi 0 (by norm_num)
  have h1 := hhi 1 (by norm_num)
  rw [be16, be32, Host.hi, Host.lo, h0, h1, hlo 0 (by norm_num), hlo 1 (by norm_num),
    hlo 2 (by norm_num), hlo 3 (by norm_num)]
  rfl

theorem wmeta16_eq (x : BitVec (p.depthLog2 + 1)) :
    Drain.wmeta16 p (x.setWidth 32) = windowMeta x := by
  have hle := p.depthLog2_le
  have hlow : (x.setWidth 32).setWidth p.depthLog2 = x.setWidth p.depthLog2 :=
    BitVec.setWidth_setWidth_of_le x (by omega)
  rw [Drain.wmeta16, windowMeta, BitVec.getLsbD_setWidth, hlow,
    decide_eq_true (show p.depthLog2 < 32 by omega), Bool.true_and]

theorem header_eq : drainHeader p c.drainReply = c.core.dumpHeader := by
  have hti : (c.drainReply 1).setWidth 16 = c.core.trigIndex.setWidth 16 :=
    BitVec.setWidth_setWidth_of_le _ (by norm_num)
  have hts := ts48_eq c.core.tsAtTrig
  have hmeta : ∀ w ∈ List.range c.windows, be16 (Drain.wmeta16 p (c.drainReply (5 + (2 * w + 1)))) =
      be16 (windowMeta (c.core.uWinMeta.mem (BitVec.ofNat 8 w))) := by
    intro w hw
    rw [c.drainReply_meta (List.mem_range.mp hw), wmeta16_eq]
  rw [drainHeader, Core.dumpHeader, drainFlags, c.status_wrapped, c.status_windows, hti,
    c.windowsOf_drainReply, List.flatMap_congr hmeta, ← hts]
  simp only [List.append_assoc]
  rfl

/-! ### Data -/

theorem drainWord_eq (a : ℕ) {lane : ℕ} (hl : lane < p.bufLanes) :
    drainWord p c.drainReply a lane =
      getLane (c.core.uBuf.mem (BitVec.ofNat p.depthLog2 a)) lane := by
  have hpad : p.storeW ≤ p.bufPadW := by
    unfold Params.bufPadW Params.bufLanes
    omega
  have hidx : 5 + 2 * windowsOf (c.drainReply 0) + 1 + (a * p.bufLanes + lane) =
      6 + 2 * c.windows + (p.bufLanes * a + lane) := by
    rw [c.windowsOf_drainReply, Nat.mul_comm a]
    omega
  rw [drainWord, hidx, c.drainReply_data, getLane_setWidth _ hpad, Nat.mul_add_div (by omega),
    Nat.div_eq_of_lt hl, Nat.mul_add_mod, Nat.mod_eq_of_lt hl, Nat.add_zero]

theorem wordBytes_eq (a : ℕ) : wordBytes p (drainWord p c.drainReply a) =
    storedBytes (c.core.uBuf.mem (BitVec.ofNat p.depthLog2 a)) := by
  refine List.map_congr_left fun b hb => ?_
  have hlt := List.mem_range.mp hb
  unfold Params.nb at hlt
  rw [c.drainWord_eq a (by unfold Params.bufLanes; omega), leByte_getLane _ _ (by omega),
    show 32 * (b / 4) + 8 * (b % 4) = 8 * b by omega]

/-- The reference answer on these replies is the dump. -/
theorem drain_eq : (drain p (wordBytes p) c.drainReply).sent = c.core.dump := by
  have hdata : ∀ k, drainData p (wordBytes p) c.drainReply k = c.core.dumpData k := by
    intro k
    rw [drainData, Core.dumpData]
    simp only [c.wordBytes_eq]
  rw [drain, Core.dump, c.header_eq]
  simp only [hdata]

theorem intact_iff (a : ℕ) : Intact p (drainWord p c.drainReply a) ↔ p.storeW ≤ 512 ∨
    getLane (c.core.uBuf.mem (BitVec.ofNat p.depthLog2 a)) 0 =
      getLane (c.core.uBuf.mem (BitVec.ofNat p.depthLog2 a)) 16 := by
  rw [Intact]
  refine or_congr_right' fun hw => ?_
  have hl : 16 < p.bufLanes := by
    unfold Params.bufLanes
    omega
  rw [c.drainWord_eq a (by omega), c.drainWord_eq a hl]

/-- The engine sends the dump exactly when every stored word is whole. -/
theorem drain_sent_iff : (drain p (laneBytes p) c.drainReply).sent = c.core.dump ↔ c.core.Whole := by
  rw [← c.drain_eq, drain_sent_inj _ (laneBytes_length p) (wordBytes_length p)]
  simp only [laneBytes_eq_iff, c.intact_iff]
  constructor
  · intro h
    refine or_iff_not_imp_left.mpr fun hw a => ?_
    have ha := (h a.toNat a.isLt).resolve_left hw
    rwa [BitVec.ofNat_toNat, BitVec.setWidth_eq] at ha
  · rintro (hw | h) a -
    · exact Or.inl hw
    · exact Or.inr (h _)

end Capture

end FpgaScope
