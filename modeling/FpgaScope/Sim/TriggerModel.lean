import Mathlib.Data.List.FinRange
import Mathlib.Data.Nat.Bitwise
import Mathlib.Tactic

/-! `trigger_model` of the simulation reference: the sequencer in sample terms, on
Python integers. All integers are nonnegative, and `~x & wmask` is written as the
complement within the mask. -/

namespace FpgaScope.Sim

/-- One entry of `cmp_cfg`. -/
structure CmpCfg where
  mask : ℕ
  value : ℕ
  edgeMask : ℕ
  edgePol : ℕ

/-- `~x & wmask`. -/
def inv (wmask x : ℕ) : ℕ := wmask ^^^ (x &&& wmask)

section
variable (wmask : ℕ) (cmpCfg : Fin 4 → CmpCfg) (combine : ℕ) (seqCnt : Fin 4 → ℕ)

def sel (n : Fin 4) : ℕ := (combine >>> (8 * n.val)) &&& 0xF

def andm (n : Fin 4) : ℕ := (combine >>> (8 * n.val + 4)) &&& 0x1

def en (n : Fin 4) : Bool := sel combine n != 0

def tgt (n : Fin 4) : ℕ := max 1 (seqCnt n)

/-- `next_en`: the first enabled stage from `frm` on. -/
def nextEn (frm : ℕ) : Option (Fin 4) :=
  (List.finRange 4).find? fun i => decide (frm ≤ i.val) && en combine i

/-- One comparator on a sample and its predecessor, both masked. -/
def cmpHit (k : Fin 4) (prev s : ℕ) : Bool :=
  let rise := inv wmask prev &&& s
  let fall := prev &&& inv wmask s
  let c := cmpCfg k
  let level := s &&& c.mask == c.value
  let edge := if c.edgeMask == 0 then true
    else c.edgeMask &&& ((c.edgePol &&& rise) ||| (inv wmask c.edgePol &&& fall)) != 0
  level && edge

/-- The `cmp_hit` nibble of a sample. -/
def hitsOf (prev s : ℕ) : ℕ :=
  (List.finRange 4).foldl (fun hits k => if cmpHit wmask cmpCfg k prev s then hits ||| 1 <<< k.val else hits) 0

/-- The variables of the loop. -/
structure LoopState where
  cur : Option (Fin 4)
  occ : ℕ
  fired : Option ℕ
  prev : ℕ
  hitsList : List ℕ

/-- `sh`: the current stage's reduction over the selected comparators. -/
def stageHit (cur : Fin 4) (hits : ℕ) : Bool :=
  if andm combine cur != 0 then hits &&& sel combine cur == sel combine cur
  else hits &&& sel combine cur != 0

/-- The sequencer part of the loop body. -/
def advance (i hits : ℕ) (t : LoopState) : LoopState :=
  match t.cur, t.fired with
  | some cur, none =>
    if stageHit combine cur hits then
      if tgt seqCnt cur ≤ t.occ + 1 then
        match nextEn combine (cur.val + 1) with
        | none => { t with fired := some i }
        | some nxt => { t with cur := some nxt, occ := 0 }
      else { t with occ := t.occ + 1 }
    else t
  | _, _ => t

/-- The loop body for sample number `i`. -/
def loopBody (t : LoopState) (x : ℕ × ℕ) : LoopState :=
  let s := x.1 &&& wmask
  let hits := hitsOf wmask cmpCfg t.prev s
  { advance combine seqCnt x.2 hits t with prev := s, hitsList := t.hitsList ++ [hits] }

end

section
variable (probeW : ℕ) (cmpCfg : Fin 4 → CmpCfg) (combine : ℕ) (seqCnt : Fin 4 → ℕ) (prev0 : ℕ)

/-- The variables before the loop. -/
def loopInit : LoopState where
  cur := nextEn combine 0
  occ := 0
  fired := none
  prev := prev0 &&& ((1 <<< probeW) - 1)
  hitsList := []

def triggerLoop (stim : List ℕ) : LoopState :=
  stim.zipIdx.foldl (loopBody ((1 <<< probeW) - 1) cmpCfg combine seqCnt)
    (loopInit probeW combine prev0)

/-- `trigger_model`: the hit nibbles and the index of the firing sample. -/
def triggerModel (stim : List ℕ) : List ℕ × Option ℕ :=
  ((triggerLoop probeW cmpCfg combine seqCnt prev0 stim).hitsList,
    (triggerLoop probeW cmpCfg combine seqCnt prev0 stim).fired)

theorem triggerLoop_snoc (stim : List ℕ) (x : ℕ) :
    triggerLoop probeW cmpCfg combine seqCnt prev0 (stim ++ [x]) =
      loopBody ((1 <<< probeW) - 1) cmpCfg combine seqCnt
        (triggerLoop probeW cmpCfg combine seqCnt prev0 stim) (x, stim.length) := by
  rw [triggerLoop, List.zipIdx_append, List.foldl_append, triggerLoop]
  simp

end

variable {combine : ℕ} {seqCnt : Fin 4 → ℕ}

/-- A parked or fired sequencer stays where it is. -/
theorem advance_rest (i hits : ℕ) {t : LoopState} (h : t.cur = none ∨ t.fired ≠ none) :
    advance combine seqCnt i hits t = t := by
  unfold advance
  rcases h with h | h
  · rw [h]
  · cases hf : t.fired with
    | none => exact absurd hf h
    | some j => cases t.cur <;> rfl

/-- The moves of a running sequencer. -/
inductive Advance (combine : ℕ) (seqCnt : Fin 4 → ℕ) (i hits : ℕ) (t : LoopState) (cur : Fin 4) :
    LoopState → Prop
  | miss (h : stageHit combine cur hits = false) : Advance combine seqCnt i hits t cur t
  | count (h : stageHit combine cur hits = true) (hlt : t.occ + 1 < tgt seqCnt cur) :
      Advance combine seqCnt i hits t cur { t with occ := t.occ + 1 }
  | next (h : stageHit combine cur hits = true) (hle : tgt seqCnt cur ≤ t.occ + 1) (nxt : Fin 4)
      (hn : nextEn combine (cur.val + 1) = some nxt) :
      Advance combine seqCnt i hits t cur { t with cur := some nxt, occ := 0 }
  | fire (h : stageHit combine cur hits = true) (hle : tgt seqCnt cur ≤ t.occ + 1)
      (hn : nextEn combine (cur.val + 1) = none) :
      Advance combine seqCnt i hits t cur { t with fired := some i }

theorem advance_move (combine : ℕ) (seqCnt : Fin 4 → ℕ) (i hits : ℕ) {t : LoopState} {cur : Fin 4} (hc : t.cur = some cur)
    (hf : t.fired = none) :
    Advance combine seqCnt i hits t cur (advance combine seqCnt i hits t) := by
  unfold advance
  simp only [hc, hf]
  cases hs : stageHit combine cur hits with
  | false => exact .miss hs
  | true =>
    by_cases hle : tgt seqCnt cur ≤ t.occ + 1
    · cases hn : nextEn combine (cur.val + 1) with
      | none =>
        simp only [hle, ↓reduceIte]
        exact hc ▸ .fire hs hle hn
      | some nxt =>
        simp only [hle, ↓reduceIte]
        exact hf ▸ .next hs hle nxt hn
    · simp only [hle, ↓reduceIte]
      rw [← hc, ← hf]
      exact .count hs (by omega)

end FpgaScope.Sim
