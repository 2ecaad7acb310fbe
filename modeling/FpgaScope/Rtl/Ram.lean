import Mathlib.Data.BitVec
import Mathlib.Logic.Function.Basic
import Mathlib.Tactic

/-! `prim_ram_1r1w`: one write port, one registered read port, and the old-data
policy when both hit the same address. The array has no reset. -/

namespace FpgaScope

/-- Array and read register of a `2^a`-entry RAM of `w`-bit words. -/
structure Ram (w a : ℕ) where
  mem : BitVec a → BitVec w
  rdData : BitVec w

namespace Ram

variable {w a : ℕ}

/-- One clock edge. The read sees the array before the write. -/
def step (r : Ram w a) (wrEn : Bool) (wrAddr : BitVec a) (wrData : BitVec w) (rdEn : Bool)
    (rdAddr : BitVec a) : Ram w a where
  mem := if wrEn then Function.update r.mem wrAddr wrData else r.mem
  rdData := if rdEn then r.mem rdAddr else r.rdData

@[simp] theorem step_mem_idle (r : Ram w a) (wrAddr : BitVec a) (wrData : BitVec w) (rdEn : Bool)
    (rdAddr : BitVec a) : (r.step false wrAddr wrData rdEn rdAddr).mem = r.mem := rfl

@[simp] theorem step_rdData (r : Ram w a) (wrEn : Bool) (wrAddr : BitVec a) (wrData : BitVec w)
    (rdAddr : BitVec a) : (r.step wrEn wrAddr wrData true rdAddr).rdData = r.mem rdAddr := rfl

end Ram

end FpgaScope
