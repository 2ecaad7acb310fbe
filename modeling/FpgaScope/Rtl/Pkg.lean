import Mathlib.Data.BitVec
import Mathlib.Tactic

/-! The shared constants of `scope_pkg`: capture states, frame opcodes and CSR
word offsets, together with the elaboration parameters of `scope_top` in the
ranges its header gives. -/

namespace FpgaScope

abbrev Byte := BitVec 8

/-- The elaboration parameters of `scope_top`. `NUM_CMP` and `SEQ_STAGES` are
fixed to 4; `TS_W` is at least 33 so that the high timestamp word exists. -/
structure Params where
  probeW : ℕ
  depthLog2 : ℕ
  rleEn : Bool
  tsW : ℕ
  idValue : BitVec 32
  probeW_pos : 1 ≤ probeW
  probeW_le : probeW ≤ 512
  le_depthLog2 : 8 ≤ depthLog2
  depthLog2_le : depthLog2 ≤ 15
  le_tsW : 33 ≤ tsW
  tsW_le : tsW ≤ 64

/-- The smallest buffer and the timestamp of the top-level defaults. -/
def Params.small (probeW : ℕ) (rleEn : Bool) (h : 1 ≤ probeW ∧ probeW ≤ 512) : Params where
  probeW := probeW
  depthLog2 := 8
  rleEn := rleEn
  tsW := 48
  idValue := 0
  probeW_pos := h.1
  probeW_le := h.2
  le_depthLog2 := by decide
  depthLog2_le := by decide
  le_tsW := by decide
  tsW_le := by decide

/-- Width of a stored word: with the run-length encoder it has one more bit. -/
def Params.storeW (p : Params) : ℕ := if p.rleEn then p.probeW + 1 else p.probeW

theorem Params.storeW_pos (p : Params) : 1 ≤ p.storeW := by
  have := p.probeW_pos
  unfold Params.storeW
  split <;> omega

theorem Params.storeW_le (p : Params) : p.storeW ≤ 513 := by
  have := p.probeW_le
  unfold Params.storeW
  split <;> omega

/-- `scope_state_e`. -/
inductive ScopeState where
  | idle | filling | armed | triggered | done
  deriving DecidableEq, Repr

/-- The encoding read back in `STATUS.state`. -/
def ScopeState.code : ScopeState → BitVec 3
  | .idle => 0
  | .filling => 1
  | .armed => 2
  | .triggered => 3
  | .done => 4

abbrev scopeIdMagic : BitVec 32 := 0x5C09E000#32
abbrev scopeVersion : BitVec 8 := 0x01#8
abbrev scopeIdReg : BitVec 32 := scopeIdMagic ||| scopeVersion.setWidth 32

abbrev scopeSync0 : Byte := 0xA5#8
abbrev scopeSync1 : Byte := 0x5C#8

abbrev scopeOpPing : Byte := 0x01#8
abbrev scopeOpReadCsr : Byte := 0x02#8
abbrev scopeOpWriteCsr : Byte := 0x03#8
abbrev scopeOpDrain : Byte := 0x04#8
abbrev scopeOpDrainData : Byte := 0x05#8
abbrev scopeOpNak : Byte := 0x15#8

abbrev scopeNakBadCrc : Byte := 0x01#8
abbrev scopeNakBadCmd : Byte := 0x02#8
abbrev scopeNakBadLen : Byte := 0x03#8

/-! ### CSR word offsets -/

abbrev csrId : BitVec 8 := 0#8
abbrev csrHwcfg : BitVec 8 := 1#8
abbrev csrCtrl : BitVec 8 := 2#8
abbrev csrStatus : BitVec 8 := 3#8
abbrev csrPretrig : BitVec 8 := 4#8
abbrev csrWindows : BitVec 8 := 5#8
abbrev csrRleCtrl : BitVec 8 := 6#8
abbrev csrTsLo : BitVec 8 := 7#8
abbrev csrTsHi : BitVec 8 := 8#8
abbrev csrTrigIndex : BitVec 8 := 9#8
abbrev csrTstrigLo : BitVec 8 := 10#8
abbrev csrTstrigHi : BitVec 8 := 11#8
abbrev csrWinSel : BitVec 8 := 12#8
abbrev csrWinMeta : BitVec 8 := 13#8
abbrev csrSmplCtrl : BitVec 8 := 14#8
abbrev csrCmpSel : BitVec 8 := 15#8
abbrev csrCmpLaneBase : BitVec 8 := 16#8
abbrev csrCmpLaneWords : BitVec 8 := 16#8
abbrev csrTrigCombine : BitVec 8 := 64#8
abbrev csrSeqCntBase : BitVec 8 := 65#8
abbrev csrBufCtrl : BitVec 8 := 96#8
abbrev csrBufData : BitVec 8 := 97#8

/-- Comparators and sequencer stages, fixed in v1. -/
abbrev numCmp : ℕ := 4
abbrev seqStages : ℕ := 4

/-- Comparator fields in the order of `CMP_SEL[3:2]`. -/
abbrev cmpFieldMask : Fin 4 := 0
abbrev cmpFieldValue : Fin 4 := 1
abbrev cmpFieldEdgeMask : Fin 4 := 2
abbrev cmpFieldEdgePol : Fin 4 := 3

end FpgaScope
