import FpgaScope.Rtl.Pkg

/-! `scope_trigger`: four registered comparators and the four-stage sequencer. The
configuration arrives from the register file; `run` is high while the core is
`ARMED`. -/

namespace FpgaScope

/-- Comparator and sequencer configuration, as the register file drives it. -/
structure TrigCfg (W : ℕ) where
  cmpMask : Fin numCmp → BitVec W
  cmpValue : Fin numCmp → BitVec W
  cmpEdgeMask : Fin numCmp → BitVec W
  cmpEdgePol : Fin numCmp → BitVec W
  trigCombine : BitVec 32
  seqCnt : Fin seqStages → BitVec 32

namespace TrigCfg

variable {W : ℕ} (cfg : TrigCfg W)

/-- `level_k && edge_k` of comparator `k`. -/
def hit (k : Fin numCmp) (probe probeD1 : BitVec W) : Bool :=
  let rise := ~~~probeD1 &&& probe
  let fall := probeD1 &&& ~~~probe
  let level := (probe &&& cfg.cmpMask k) == cfg.cmpValue k
  let edge := if cfg.cmpEdgeMask k == 0 then true
    else (cfg.cmpEdgeMask k &&& ((cfg.cmpEdgePol k &&& rise) ||| (~~~cfg.cmpEdgePol k &&& fall))) != 0
  level && edge

/-- The hits of all comparators. -/
def hits (probe probeD1 : BitVec W) : Fin numCmp → Bool := fun k => cfg.hit k probe probeD1

/-- Select nibble of stage `n`. -/
def sel (n : Fin seqStages) (k : Fin numCmp) : Bool := cfg.trigCombine.getLsbD (8 * n + k)

def andMode (n : Fin seqStages) : Bool := cfg.trigCombine.getLsbD (8 * n + 4)

def stageEn (n : Fin seqStages) : Bool := (List.finRange numCmp).any fun k => cfg.sel n k

def stageHit (n : Fin seqStages) (cmpHit : Fin numCmp → Bool) : Bool :=
  if cfg.andMode n then (List.finRange numCmp).all fun k => cmpHit k || !cfg.sel n k
  else (List.finRange numCmp).any fun k => cmpHit k && cfg.sel n k

/-- Occurrence target of stage `n`; 0 counts as 1. -/
def tgt (n : Fin seqStages) : BitVec 32 := if cfg.seqCnt n == 0 then 1 else cfg.seqCnt n

end TrigCfg

/-- `first_en_from`: the lowest enabled stage from `start` on, or `SEQ_STAGES`. -/
def firstEnFrom (start : ℕ) (en : Fin seqStages → Bool) : BitVec 3 :=
  (List.finRange seqStages).reverse.foldl
    (fun r i => if start ≤ i.val && en i then BitVec.ofNat 3 i.val else r) (BitVec.ofNat 3 seqStages)

/-- Registers of `scope_trigger`. -/
structure Trigger (W : ℕ) where
  dly0 : BitVec W
  dly1 : BitVec W
  cmpHitQ : Fin numCmp → Bool
  cur : BitVec 3
  occ : BitVec 32
  fired : Bool
  trigSeqQ : Bool
  forceD1 : Bool

/-- Inputs of `scope_trigger` besides the configuration. -/
structure TrigIn (W : ℕ) where
  probe : BitVec W
  run : Bool
  forceTrig : Bool
  trigExtI : Bool

namespace Trigger

variable {W : ℕ}

/-- `sample_o`: the probe delayed by `LATENCY = 2`. -/
def sampleO (t : Trigger W) : BitVec W := t.dly1

/-- The stage selected by `cur[1:0]`. -/
def curStage (t : Trigger W) : Fin seqStages := (t.cur.setWidth 2).toFin

def curValid (t : Trigger W) : Bool := t.cur < BitVec.ofNat 3 seqStages

def curHit (t : Trigger W) (cfg : TrigCfg W) : Bool :=
  t.curValid && cfg.stageHit t.curStage t.cmpHitQ

def stageDone (t : Trigger W) (cfg : TrigCfg W) : Bool :=
  t.curHit cfg && decide (cfg.tgt t.curStage ≤ t.occ + 1)

def nxt (t : Trigger W) (cfg : TrigCfg W) : BitVec 3 := firstEnFrom (t.cur.toNat + 1) cfg.stageEn

def fireNow (t : Trigger W) (cfg : TrigCfg W) (run : Bool) : Bool :=
  run && !t.fired && t.stageDone cfg && t.nxt cfg == BitVec.ofNat 3 seqStages

/-- `trig`: registered sequencer fire, pending force or external trigger. -/
def trig (t : Trigger W) (i : TrigIn W) : Bool := t.trigSeqQ || i.forceTrig || i.trigExtI

/-- `trig_ext_o`: own fire only. -/
def trigExtO (t : Trigger W) (i : TrigIn W) : Bool := t.trigSeqQ || (i.forceTrig && !t.forceD1)

def reset : Trigger W where
  dly0 := 0
  dly1 := 0
  cmpHitQ := fun _ => false
  cur := BitVec.ofNat 3 seqStages
  occ := 0
  fired := false
  trigSeqQ := false
  forceD1 := false

/-- One clock edge outside reset. -/
def step (t : Trigger W) (cfg : TrigCfg W) (i : TrigIn W) : Trigger W :=
  let d : Trigger W := { t with
    dly0 := i.probe
    dly1 := t.dly0
    cmpHitQ := cfg.hits i.probe t.dly0
    forceD1 := i.forceTrig }
  if !i.run then
    { d with cur := firstEnFrom 0 cfg.stageEn, occ := 0, fired := false, trigSeqQ := false }
  else
    let d := { d with trigSeqQ := t.fireNow cfg i.run }
    if t.fireNow cfg i.run then { d with fired := true }
    else if !t.fired && t.stageDone cfg then { d with cur := t.nxt cfg, occ := 0 }
    else if !t.fired && t.curHit cfg then { d with occ := t.occ + 1 }
    else d

end Trigger

end FpgaScope
