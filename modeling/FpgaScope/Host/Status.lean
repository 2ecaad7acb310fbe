import FpgaScope.Rtl.Csr
import Mathlib.Data.Nat.Bitwise

/-! `decode_status` of the host package and the poll of `Scope.wait_done`, on Python
integers. -/

namespace FpgaScope.Host

/-- `STATE_DONE`. -/
def stateDone : ℕ := 4

/-- `STATE_NAMES.get(state, "?")`. -/
def stateName (state : ℕ) : String :=
  match state with
  | 0 => "IDLE"
  | 1 => "FILLING"
  | 2 => "ARMED"
  | 3 => "TRIGGERED"
  | 4 => "DONE"
  | _ => "?"

structure Status where
  state : ℕ
  stateName : String
  triggered : Bool
  wrapped : Bool
  cfgErr : Bool
  windowsDone : ℕ

/-- `decode_status`. -/
def decodeStatus (word : ℕ) : Status where
  state := word &&& 0x7
  stateName := stateName (word &&& 0x7)
  triggered := word &&& (1 <<< 3) != 0
  wrapped := word &&& (1 <<< 4) != 0
  cfgErr := word &&& (1 <<< 5) != 0
  windowsDone := (word >>> 8) &&& 0xFF

/-- `wait_done` on the `STATUS` words it reads before its deadline. -/
def waitDone : List ℕ → Bool
  | [] => false
  | word :: polls => if (decodeStatus word).state == stateDone then true else waitDone polls

theorem waitDone_single (word : ℕ) : waitDone [word] = ((decodeStatus word).state == stateDone) := by
  unfold waitDone
  cases (decodeStatus word).state == stateDone <;> rfl

theorem waitDone_iff (polls : List ℕ) :
    waitDone polls = true ↔ ∃ word ∈ polls, (decodeStatus word).state = stateDone := by
  induction polls with
  | nil => simp [waitDone]
  | cons word polls ih =>
    rw [waitDone]
    by_cases hword : (decodeStatus word).state = stateDone
    · simp [hword]
    · simp [hword, ih]

/-! ### The word of the register file -/

theorem append_toNat {a b : ℕ} (x : BitVec a) (y : BitVec b) :
    (x ++ y).toNat = x.toNat * 2 ^ b + y.toNat := by
  rw [BitVec.toNat_append, ← Nat.shiftLeft_add_eq_or_of_lt y.isLt, Nat.shiftLeft_eq]

theorem and_bit (word i : ℕ) : (word &&& (1 <<< i) != 0) = word.testBit i := by
  rw [Nat.one_shiftLeft, Nat.and_two_pow]
  cases word.testBit i <;> simp

theorem statusWord_toNat {p : Params} {W L T : ℕ} (c : Csr p) (core : Core W L T) :
    (c.statusWord core).toNat = core.windowsDone.toNat * 256 + c.cfgErr.toNat * 32 +
      core.wrapped.toNat * 16 + core.triggered.toNat * 8 + core.st.code.toNat := by
  unfold Csr.statusWord
  simp only [append_toNat, BitVec.toNat_ofBool, BitVec.toNat_ofNat]
  omega

/-- The host reads back what the register file put into the word. -/
theorem decode_statusWord {p : Params} {W L T : ℕ} (c : Csr p) (core : Core W L T) :
    decodeStatus (c.statusWord core).toNat =
      { state := core.st.code.toNat
        stateName := stateName core.st.code.toNat
        triggered := core.triggered
        wrapped := core.wrapped
        cfgErr := c.cfgErr
        windowsDone := core.windowsDone.toNat } := by
  have hword := statusWord_toNat c core
  have hdone := core.windowsDone.isLt
  have hcode := core.st.code.isLt
  have hbit : ∀ (b : Bool), b.toNat ≤ 1 := Bool.toNat_le
  have h₁ := hbit c.cfgErr
  have h₂ := hbit core.wrapped
  have h₃ := hbit core.triggered
  have hstate : (c.statusWord core).toNat &&& 0x7 = core.st.code.toNat := by
    rw [show 0x7 = 2 ^ 3 - 1 from rfl, Nat.and_two_pow_sub_one_eq_mod, hword]
    omega
  have hcount : ((c.statusWord core).toNat >>> 8) &&& 0xFF = core.windowsDone.toNat := by
    rw [show 0xFF = 2 ^ 8 - 1 from rfl, Nat.and_two_pow_sub_one_eq_mod, Nat.shiftRight_eq_div_pow,
      hword]
    omega
  have hflag : ∀ (i : ℕ) (b : Bool), (c.statusWord core).toNat / 2 ^ i % 2 = b.toNat →
      ((c.statusWord core).toNat &&& (1 <<< i) != 0) = b := by
    intro i b hb
    rw [and_bit, Nat.testBit_eq_decide_div_mod_eq, hb]
    cases b <;> rfl
  unfold decodeStatus
  rw [hstate, hcount, hflag 3 core.triggered (by rw [hword]; omega),
    hflag 4 core.wrapped (by rw [hword]; omega), hflag 5 c.cfgErr (by rw [hword]; omega)]

theorem code_done (st : ScopeState) : st.code.toNat = stateDone ↔ st = .done := by
  cases st <;> decide

end FpgaScope.Host
