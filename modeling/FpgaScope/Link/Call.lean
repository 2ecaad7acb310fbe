import FpgaScope.Engine.Serve
import FpgaScope.Rtl.Transport

/-! The transport with ideal queues instead of the FIFOs. A queue takes a word when it
likes and shows its oldest word when it likes, but loses nothing. Whatever the queues and
the clocks do, one operation is under way at a time and goes through the same five phases,
so each operation is one strobe and its reply is the result of that strobe. -/

namespace FpgaScope

theorem CsrOp.unpack_pack (o : CsrOp) : CsrOp.unpack o.pack = o := by
  have hbit : ∀ i, o.pack.getLsbD i =
      if i < 32 then o.wdata.getLsbD i else if i - 32 < 8 then o.addr.getLsbD (i - 32)
        else (BitVec.ofBool o.write).getLsbD (i - 32 - 8) := by
    intro i
    rw [pack, show (BitVec.ofBool o.write ++ o.addr ++ o.wdata : BitVec 41).getLsbD i = _ from
      BitVec.getLsbD_append, BitVec.getLsbD_append]
  refine CsrOp.ext ?_ ?_ ?_
  · rw [unpack, hbit]
    simp
  · apply BitVec.eq_of_getLsbD_eq
    intro i hi
    rw [unpack, BitVec.getLsbD_extractLsb', hbit]
    simp [hi]
  · apply BitVec.eq_of_getLsbD_eq
    intro i hi
    rw [unpack, BitVec.getLsbD_setWidth, hbit]
    simp [hi]

/-- Frame engine, servicer and capture domain with a queue for each direction. -/
structure Link (p : Params) where
  drain : Drain p
  cmdQ : List (BitVec 41)
  servicer : Servicer
  rspQ : List (BitVec 32)
  capture : Capture p

/-- An event as for `Transport`. The queues decide freely whether they accept and whether
they show a word; an empty read side shows any data. -/
structure LinkEvent (p : Params) where
  xclk : Bool
  clk : Bool
  rxData : Byte
  rxValid : Bool
  txReady : Bool
  probe : BitVec p.probeW
  trigExtI : Bool
  cmdWrReady : Bool
  cmdRdValid : Bool
  cmdRdData : BitVec 41
  rspWrReady : Bool
  rspRdValid : Bool
  rspRdData : BitVec 32

namespace Link

variable {p : Params} (ℓ : Link p) (e : LinkEvent p)

/-! ### One event -/

/-- The words shown by the read sides. -/
def cmdShown : Option (BitVec 41) := if e.cmdRdValid then ℓ.cmdQ.head? else none

def rspShown : Option (BitVec 32) := if e.rspRdValid then ℓ.rspQ.head? else none

def drainIn : DrainIn where
  rxData := e.rxData
  rxValid := e.rxValid
  txReady := e.txReady
  cmdReady := e.cmdWrReady
  rspData := (ℓ.rspShown e).getD e.rspRdData
  rspValid := (ℓ.rspShown e).isSome

def captureIn : CaptureIn p where
  probe := e.probe
  trigExtI := e.trigExtI
  bus := ℓ.servicer.bus

def csrRdata : BitVec 32 := ℓ.capture.csrRdata (ℓ.captureIn e)

/-- Words that enter and leave the queues. -/
def cmdPushed : Option (BitVec 41) :=
  if e.xclk && (ℓ.drain.cmdValid && e.cmdWrReady) then some ℓ.drain.cmdData else none

def cmdPopped : Option (BitVec 41) := if e.clk && ℓ.servicer.cmdRdReady then ℓ.cmdShown e else none

def rspPushed : Option (BitVec 32) :=
  if e.clk && (ℓ.servicer.rspWrValid && e.rspWrReady) then some ℓ.servicer.svResult else none

def rspPopped : Option (BitVec 32) := if e.xclk && ℓ.drain.rspReady then ℓ.rspShown e else none

def step : Link p where
  drain := if e.xclk then ℓ.drain.step (ℓ.drainIn e) else ℓ.drain
  cmdQ := ℓ.cmdQ.drop (ℓ.cmdPopped e).toList.length ++ (ℓ.cmdPushed e).toList
  servicer :=
    if e.clk then
      ℓ.servicer.step (ℓ.cmdShown e).isSome ((ℓ.cmdShown e).getD e.cmdRdData) (ℓ.csrRdata e) e.rspWrReady
    else ℓ.servicer
  rspQ := ℓ.rspQ.drop (ℓ.rspPopped e).toList.length ++ (ℓ.rspPushed e).toList
  capture := if e.clk then ℓ.capture.step (ℓ.captureIn e) else ℓ.capture

/-- The strobe of an event: its operation and its result. -/
def executed : Option (CsrOp × BitVec 32) :=
  if e.clk && ℓ.servicer.sv == .exec then some (ℓ.servicer.op, ℓ.servicer.result (ℓ.csrRdata e))
  else none

/-- The input of the frame engine, at an edge of its clock. -/
def engineIn : Option DrainIn := if e.xclk then some (ℓ.drainIn e) else none

/-- Operations issued by the frame engine and replies latched by it. -/
def issued : Option CsrOp := (ℓ.engineIn e).bind fun i => ℓ.drain.issued i

def latched : Option (BitVec 32) := (ℓ.engineIn e).bind fun i => ℓ.drain.taken i

/-! ### The five phases -/

/-- Where the operation under way is, after the engine issued `O`, the strobes `C` were
executed and the engine latched `R`. -/
inductive Phase (ℓ : Link p) (O : List CsrOp) (R : List (BitVec 32)) (C : List (CsrOp × BitVec 32)) :
    Prop
  | idle (hc : ℓ.cmdQ = []) (hs : ℓ.servicer.sv = .idle) (hr : ℓ.rspQ = [])
      (hO : O = C.map Prod.fst) (hR : R = C.map Prod.snd)
  | sent {o : CsrOp} (hw : ℓ.drain.st = .csrWait) (hc : ℓ.cmdQ = [o.pack])
      (hs : ℓ.servicer.sv = .idle) (hr : ℓ.rspQ = []) (hO : O = C.map Prod.fst ++ [o])
      (hR : R = C.map Prod.snd)
  | exec (hw : ℓ.drain.st = .csrWait) (hc : ℓ.cmdQ = []) (hs : ℓ.servicer.sv = .exec)
      (hr : ℓ.rspQ = []) (hO : O = C.map Prod.fst ++ [ℓ.servicer.op]) (hR : R = C.map Prod.snd)
  | push {x : BitVec 32} (hw : ℓ.drain.st = .csrWait) (hc : ℓ.cmdQ = [])
      (hs : ℓ.servicer.sv = .push) (hr : ℓ.rspQ = []) (hx : ℓ.servicer.svResult = x)
      (hO : O = C.map Prod.fst) (hR : R ++ [x] = C.map Prod.snd)
  | back {x : BitVec 32} (hw : ℓ.drain.st = .csrWait) (hc : ℓ.cmdQ = [])
      (hs : ℓ.servicer.sv = .idle) (hr : ℓ.rspQ = [x]) (hO : O = C.map Prod.fst)
      (hR : R ++ [x] = C.map Prod.snd)

/-! ### What moves in an event -/

variable {ℓ e}

theorem cmdPushed_eq : ℓ.cmdPushed e = (ℓ.issued e).map CsrOp.pack := by
  unfold cmdPushed issued engineIn Drain.issued
  cases e.xclk with
  | false => rfl
  | true =>
    change (if ℓ.drain.cmdValid && e.cmdWrReady then _ else _) = Option.map CsrOp.pack
      (if ℓ.drain.cmdValid && e.cmdWrReady then some ℓ.drain.cmdOp else none)
    split <;> rfl

theorem latched_eq : ℓ.latched e = ℓ.rspPopped e := by
  unfold latched rspPopped engineIn Drain.taken
  cases e.xclk with
  | false => rfl
  | true =>
    change (if ℓ.drain.rspReady && (ℓ.rspShown e).isSome then
      some ((ℓ.rspShown e).getD e.rspRdData) else none) = if ℓ.drain.rspReady then _ else _
    cases ℓ.rspShown e <;> cases ℓ.drain.rspReady <;> rfl

/-- The engine issues in `CSR_PUSH` and waits afterwards. -/
theorem issued_some {o : CsrOp} (h : ℓ.issued e = some o) : (ℓ.step e).drain.st = .csrWait := by
  unfold issued engineIn at h
  cases hx : e.xclk with
  | false => rw [hx] at h; cases h
  | true =>
    rw [hx, if_pos rfl, Option.bind_some, Drain.issued] at h
    split at h
    · rename_i hv
      obtain ⟨hst, hready⟩ := Bool.and_eq_true_iff.mp hv
      have hst' : ℓ.drain.st = .csrPush := by simpa [Drain.cmdValid] using hst
      change (if e.xclk then ℓ.drain.step (ℓ.drainIn e) else ℓ.drain).st = _
      rw [hx, if_pos rfl, Drain.step, hst']
      dsimp only
      rw [if_pos hready]
    · cases h

/-- A waiting engine issues nothing. -/
theorem issued_wait (hw : ℓ.drain.st = .csrWait) : ℓ.issued e = none := by
  unfold issued engineIn Drain.issued Drain.cmdValid
  rw [hw]
  cases e.xclk <;> rfl

/-- It waits until it latches a reply. -/
theorem wait_step (hw : ℓ.drain.st = .csrWait) (hl : ℓ.latched e = none) :
    (ℓ.step e).drain.st = .csrWait := by
  change (if e.xclk then ℓ.drain.step (ℓ.drainIn e) else ℓ.drain).st = _
  cases hx : e.xclk with
  | false => exact hw
  | true =>
    unfold latched engineIn at hl
    rw [hx, if_pos rfl, Option.bind_some, Drain.taken, Drain.rspReady, hw] at hl
    rw [if_pos rfl, Drain.step, hw]
    dsimp only
    split at hl
    · cases hl
    · rename_i hv
      rw [if_neg (by simpa using hv), hw]

/-- What leaves a queue is its oldest word. -/
theorem cmdPopped_cases : ℓ.cmdPopped e = none ∨ ℓ.cmdPopped e = ℓ.cmdQ.head? := by
  rw [cmdPopped, cmdShown]
  split
  · split
    · exact Or.inr rfl
    · exact Or.inl rfl
  · exact Or.inl rfl

theorem latched_cases : ℓ.latched e = none ∨ ℓ.latched e = ℓ.rspQ.head? := by
  rw [latched_eq, rspPopped, rspShown]
  split
  · split
    · exact Or.inr rfl
    · exact Or.inl rfl
  · exact Or.inl rfl

theorem cmdPopped_nil (hc : ℓ.cmdQ = []) : ℓ.cmdPopped e = none := by
  have h := cmdPopped_cases (ℓ := ℓ) (e := e)
  rwa [hc, List.head?_nil, or_self] at h

theorem latched_nil (hr : ℓ.rspQ = []) : ℓ.latched e = none := by
  have h := latched_cases (ℓ := ℓ) (e := e)
  rwa [hr, List.head?_nil, or_self] at h

theorem step_cmdQ : (ℓ.step e).cmdQ =
    ℓ.cmdQ.drop (ℓ.cmdPopped e).toList.length ++ ((ℓ.issued e).map CsrOp.pack).toList := by
  rw [← cmdPushed_eq]
  rfl

theorem step_rspQ : (ℓ.step e).rspQ =
    ℓ.rspQ.drop (ℓ.latched e).toList.length ++ (ℓ.rspPushed e).toList := by
  rw [latched_eq]
  rfl

theorem step_servicer : (ℓ.step e).servicer =
    if e.clk then
      ℓ.servicer.step (ℓ.cmdShown e).isSome ((ℓ.cmdShown e).getD e.cmdRdData) (ℓ.csrRdata e) e.rspWrReady
    else ℓ.servicer := rfl

/-- An idle servicer takes the word shown to it. -/
theorem servicer_idle (hs : ℓ.servicer.sv = .idle) :
    ℓ.executed e = none ∧ ℓ.rspPushed e = none ∧
    (ℓ.cmdPopped e = none → (ℓ.step e).servicer = ℓ.servicer) ∧
    (∀ o : CsrOp, ℓ.cmdPopped e = some o.pack →
      (ℓ.step e).servicer.sv = .exec ∧ (ℓ.step e).servicer.op = o) := by
  rw [step_servicer]
  unfold executed rspPushed cmdPopped Servicer.step Servicer.cmdRdReady Servicer.rspWrValid
  rw [hs]
  cases e.clk with
  | false => exact ⟨rfl, rfl, fun _ => rfl, nofun⟩
  | true =>
    refine ⟨rfl, rfl, fun hn => ?_, fun o ho => ?_⟩
    · change ℓ.cmdShown e = none at hn
      rw [hn]
      rfl
    · change ℓ.cmdShown e = some o.pack at ho
      rw [ho]
      have hop := CsrOp.unpack_pack o
      exact ⟨rfl, by rw [Servicer.op]; exact hop⟩

/-! ### One event keeps the phase -/

variable {O : List CsrOp} {R : List (BitVec 32)} {C : List (CsrOp × BitVec 32)}

/-- Nothing is under way: an operation may be issued. -/
theorem Phase.step_idle (hc : ℓ.cmdQ = []) (hs : ℓ.servicer.sv = .idle) (hr : ℓ.rspQ = [])
    (hO : O = C.map Prod.fst) (hR : R = C.map Prod.snd) :
    Phase (ℓ.step e) (O ++ (ℓ.issued e).toList) (R ++ (ℓ.latched e).toList)
      (C ++ (ℓ.executed e).toList) := by
  have hpop := cmdPopped_nil (e := e) hc
  obtain ⟨hexec, hpush, hkeep, -⟩ := servicer_idle (e := e) hs
  have hl := latched_nil (e := e) hr
  have hs' : (ℓ.step e).servicer.sv = .idle := by rw [hkeep hpop, hs]
  have hr' : (ℓ.step e).rspQ = [] := by rw [step_rspQ, hr, hpush, List.drop_nil]; rfl
  have hc' := step_cmdQ (ℓ := ℓ) (e := e)
  rw [hc, hpop, List.drop_nil, List.nil_append] at hc'
  rw [hl, hexec, Option.toList_none, Option.toList_none, List.append_nil, List.append_nil]
  cases hi : ℓ.issued e with
  | none =>
    rw [hi] at hc'
    exact .idle hc' hs' hr' (by rw [Option.toList_none, List.append_nil, hO]) hR
  | some o =>
    rw [hi] at hc'
    exact .sent (issued_some hi) hc' hs' hr' (by rw [hO, Option.toList_some]) hR

/-- The operation is in the command queue. -/
theorem Phase.step_sent {o : CsrOp} (hw : ℓ.drain.st = .csrWait) (hc : ℓ.cmdQ = [o.pack])
    (hs : ℓ.servicer.sv = .idle) (hr : ℓ.rspQ = []) (hO : O = C.map Prod.fst ++ [o])
    (hR : R = C.map Prod.snd) :
    Phase (ℓ.step e) (O ++ (ℓ.issued e).toList) (R ++ (ℓ.latched e).toList)
      (C ++ (ℓ.executed e).toList) := by
  obtain ⟨hexec, hpush, hkeep, htake⟩ := servicer_idle (e := e) hs
  have hl := latched_nil (e := e) hr
  have hi := issued_wait (e := e) hw
  have hw' := wait_step hw hl
  have hr' : (ℓ.step e).rspQ = [] := by rw [step_rspQ, hr, hpush, List.drop_nil]; rfl
  have hc' := step_cmdQ (ℓ := ℓ) (e := e)
  rw [hc, hi, Option.map_none, Option.toList_none, List.append_nil] at hc'
  rw [hl, hi, hexec, Option.toList_none, Option.toList_none, Option.toList_none, List.append_nil,
    List.append_nil, List.append_nil]
  have hpop := cmdPopped_cases (ℓ := ℓ) (e := e)
  rw [hc, List.head?_cons] at hpop
  rcases hpop with hpop | hpop
  · rw [hpop] at hc'
    exact .sent hw' hc' (by rw [hkeep hpop, hs]) hr' hO hR
  · rw [hpop] at hc'
    obtain ⟨hs', hop⟩ := htake o hpop
    exact .exec hw' hc' hs' hr' (by rw [hop, hO]) hR

/-- The operation is in the command registers: the next edge of `clk` is its strobe. -/
theorem Phase.step_exec (hw : ℓ.drain.st = .csrWait) (hc : ℓ.cmdQ = []) (hs : ℓ.servicer.sv = .exec)
    (hr : ℓ.rspQ = []) (hO : O = C.map Prod.fst ++ [ℓ.servicer.op]) (hR : R = C.map Prod.snd) :
    Phase (ℓ.step e) (O ++ (ℓ.issued e).toList) (R ++ (ℓ.latched e).toList)
      (C ++ (ℓ.executed e).toList) := by
  have hl := latched_nil (e := e) hr
  have hi := issued_wait (e := e) hw
  have hw' := wait_step hw hl
  have hpush : ℓ.rspPushed e = none := by
    rw [rspPushed, Servicer.rspWrValid, hs]
    cases e.clk <;> rfl
  have hr' : (ℓ.step e).rspQ = [] := by rw [step_rspQ, hr, hpush, List.drop_nil]; rfl
  have hc' : (ℓ.step e).cmdQ = [] := by rw [step_cmdQ, hc, hi, List.drop_nil]; rfl
  rw [hl, hi, Option.toList_none, Option.toList_none, List.append_nil, List.append_nil, executed, hs]
  have hsv := step_servicer (ℓ := ℓ) (e := e)
  rw [Servicer.step, hs] at hsv
  cases hk : e.clk with
  | false =>
    rw [hk] at hsv
    refine .exec hw' hc' (by rw [hsv]; exact hs) hr' ?_ ?_
    · rw [hsv]
      exact hO.trans (by simp)
    · exact hR.trans (by simp)
  | true =>
    rw [hk] at hsv
    refine .push (x := ℓ.servicer.result (ℓ.csrRdata e)) hw' hc' (by rw [hsv]; rfl) hr' (by rw [hsv]; rfl) ?_ ?_
    · exact hO.trans (by simp)
    · rw [hR]
      simp

/-- The result waits to enter the response queue. -/
theorem Phase.step_push {x : BitVec 32} (hw : ℓ.drain.st = .csrWait) (hc : ℓ.cmdQ = [])
    (hs : ℓ.servicer.sv = .push) (hr : ℓ.rspQ = []) (hx : ℓ.servicer.svResult = x)
    (hO : O = C.map Prod.fst) (hR : R ++ [x] = C.map Prod.snd) :
    Phase (ℓ.step e) (O ++ (ℓ.issued e).toList) (R ++ (ℓ.latched e).toList)
      (C ++ (ℓ.executed e).toList) := by
  have hl := latched_nil (e := e) hr
  have hi := issued_wait (e := e) hw
  have hw' := wait_step hw hl
  have hexec : ℓ.executed e = none := by
    rw [executed, hs]
    cases e.clk <;> rfl
  have hc' : (ℓ.step e).cmdQ = [] := by rw [step_cmdQ, hc, hi, List.drop_nil]; rfl
  have hr' := step_rspQ (ℓ := ℓ) (e := e)
  rw [hr, List.drop_nil, List.nil_append, rspPushed, Servicer.rspWrValid, hs, hx] at hr'
  have hsv := step_servicer (ℓ := ℓ) (e := e)
  rw [Servicer.step, hs] at hsv
  rw [hl, hi, hexec, Option.toList_none, Option.toList_none, Option.toList_none, List.append_nil,
    List.append_nil, List.append_nil]
  cases hk : e.clk with
  | false =>
    rw [hk] at hsv hr'
    exact .push hw' hc' (by rw [hsv]; exact hs) hr' (by rw [hsv]; exact hx) hO hR
  | true =>
    rw [hk] at hsv hr'
    cases hready : e.rspWrReady with
    | false =>
      rw [hready] at hsv hr'
      exact .push hw' hc' (by rw [hsv]; exact hs) hr' (by rw [hsv]; exact hx) hO hR
    | true =>
      rw [hready] at hsv hr'
      exact .back hw' hc' (by rw [hsv]; rfl) hr' hO hR

/-- The reply is in the response queue. -/
theorem Phase.step_back {x : BitVec 32} (hw : ℓ.drain.st = .csrWait) (hc : ℓ.cmdQ = [])
    (hs : ℓ.servicer.sv = .idle) (hr : ℓ.rspQ = [x]) (hO : O = C.map Prod.fst)
    (hR : R ++ [x] = C.map Prod.snd) :
    Phase (ℓ.step e) (O ++ (ℓ.issued e).toList) (R ++ (ℓ.latched e).toList)
      (C ++ (ℓ.executed e).toList) := by
  have hpop := cmdPopped_nil (e := e) hc
  obtain ⟨hexec, hpush, hkeep, -⟩ := servicer_idle (e := e) hs
  have hi := issued_wait (e := e) hw
  have hs' : (ℓ.step e).servicer.sv = .idle := by rw [hkeep hpop, hs]
  have hc' : (ℓ.step e).cmdQ = [] := by rw [step_cmdQ, hc, hi, List.drop_nil]; rfl
  have hr' := step_rspQ (ℓ := ℓ) (e := e)
  rw [hr, hpush, Option.toList_none, List.append_nil] at hr'
  have hl := latched_cases (ℓ := ℓ) (e := e)
  rw [hr, List.head?_cons] at hl
  rw [hi, hexec, Option.toList_none, Option.toList_none, List.append_nil, List.append_nil]
  rcases hl with hl | hl
  · rw [hl] at hr'
    rw [hl, Option.toList_none, List.append_nil]
    exact .back (wait_step hw hl) hc' hs' hr' hO hR
  · rw [hl] at hr'
    rw [hl, Option.toList_some]
    exact .idle hc' hs' hr' hO hR

theorem Phase.step (h : Phase ℓ O R C) :
    Phase (ℓ.step e) (O ++ (ℓ.issued e).toList) (R ++ (ℓ.latched e).toList)
      (C ++ (ℓ.executed e).toList) := by
  cases h with
  | idle hc hs hr hO hR => exact step_idle hc hs hr hO hR
  | sent hw hc hs hr hO hR => exact step_sent hw hc hs hr hO hR
  | exec hw hc hs hr hO hR => exact step_exec hw hc hs hr hO hR
  | push hw hc hs hr hx hO hR => exact step_push hw hc hs hr hx hO hR
  | back hw hc hs hr hO hR => exact step_back hw hc hs hr hO hR

end Link

end FpgaScope
