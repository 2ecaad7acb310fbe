import FpgaScope.Board.Played
import FpgaScope.Host.Reconstruct

/-! From the nets of the board to the list that `reconstruct.py` exports. Whatever the console
did before, the script and `reconstruct.py` give what the framed protocol gives on the same
capture. -/

namespace FpgaScope

open Clocked Capture Console Host Protocol

variable {p : Params}

/-- The file of a finished capture, read back. -/
theorem Holding.reconstructed {c₀ : Capture p} {inp : ℕ → CaptureIn p} {a m n : ℕ} (h : Holding c₀ inp a m n)
    (hW : p.probeW = 32) (hr : p.rleEn = true) {c : Csr p} {pretrig : ℕ} (hpre : pretrig < p.depth)
    (hconfig : (run c₀ inp a).csr.config = configured c pretrig) (around : ℤ) : ∃ cap d u v k,
      decodeDrain (parseAll (run c₀ inp n).core.dump) 32 pretrig = .ok cap ∧ d < n ∧
      TimeOrdered c₀ inp a d u v k cap ∧ 0 ≤ cap.trigPos ∧
      reconstructMain (dumpText (headerOf (run c₀ inp m).core pretrig) (wholeBuffer (run c₀ inp m).core)) around =
        some (focus around (cap.samples.map fun s : ℕ => (s : ℤ), cap.trigPos)) := by
  have hdone : stAt c₀ inp n = .done := h.parked.st.trans h.done
  have harm := h.armed.lastArm
  have hle := p.depthLog2_le
  have hpretrig : (run c₀ inp a).csr.pretrigQ.toNat = pretrig := by
    have hfield := congrArg Csr.pretrigQ hconfig
    rw [configured_pretrig] at hfield
    change (run c₀ inp a).csr.pretrigQ = _ at hfield
    rw [hfield, BitVec.toNat_setWidth, BitVec.ofInt_natCast, BitVec.toNat_ofNat]
    have hfit : 2 ^ p.depthLog2 ≤ 2 ^ 32 := Nat.pow_le_pow_right (by norm_num) (by omega)
    have hlt : pretrig < 2 ^ p.depthLog2 := hpre
    rw [Nat.mod_eq_of_lt (hlt.trans_le hfit), Nat.mod_eq_of_lt hlt]
  obtain ⟨-, d, honly⟩ := onlyWindow_of_done harm h.one hdone
  obtain ⟨u, v, k, hordered⟩ := honly.timeOrdered harm fun _ => by omega
  rw [hpretrig] at hordered
  refine ⟨_, d, u, v, k, ?_, honly.before, hordered, ?_, ?_⟩
  · rw [← hW]
    exact decodeDrain_dump _ _
  · simp only [captureOf, timeOrder, hr, ↓reduceIte]
    exact Int.natCast_nonneg _
  · rw [reconstructMain_dumpText _ rfl rfl, captureOf_frozen h.parked.frozen]
    simp only [headerOf, captureOf, hr, hW]

namespace Board

/-- The script of the console and `reconstruct.py` against the framed protocol. Whatever came over
the lines of the master before, once the script has been played on them it has armed the scope, and
comes to a capture that outlasts its polls or to a file. Of the file `reconstruct.py` makes what
`decode_drain` makes of the `DRAIN` response of the scope as it then stands: the samples of
successive store ticks, the trigger at `trig_pos`. -/
theorem script_exports (hW : p.probeW = 32) (hr : p.rleEn = true) (c₀ : Capture p) (probe : BitVec p.probeW)
    (pretrig : ℕ) (hpre : pretrig < p.depth) (len around : ℤ) (inp : ℕ → BoardIn p) (hline : Orderly inp)
    (t n : ℕ) (r : Outcome)
    (hplay : Plays (signals (start c₀ probe) inp) t (scopeCapture pretrig len) n r) :
    let b := start c₀ probe
    ∃ a, t ≤ a ∧ Core.LastArm c₀.core (coreInp c₀ (captureInp b inp)) a n ∧
      ((∃ st, r = .never st ∧ a + 400000 ≤ n ∧
          ∀ v, a < v → v ≤ a + 400000 → stAt c₀ (captureInp b inp) v ≠ .done) ∨
        ∃ text cap d u v k, r = .dumped text ∧
          decodeDrain (parseAll (run b inp n).capture.core.dump) 32 pretrig = .ok cap ∧
          TimeOrdered c₀ (captureInp b inp) a d u v k cap ∧
          reconstructMain text around = some (focus around (cap.samples.map fun s : ℕ => (s : ℤ), cap.trigPos))) := by
  intro b
  have w := onWindow hline c₀ probe
  have hscript := plays w hW hr pretrig len (fun n hn hx => hn.step w hx)
    (soft_resets w t (Capture.run c₀ (captureInp b inp) t).csr.config)
  obtain ⟨s, a, hs, harm, hcomes⟩ := hscript t n r ⟨le_rfl, rfl⟩ hplay
  have hafter : t ≤ a := hs.trans harm.since
  cases hcomes with
  | never st harmed hlate hbusy => exact ⟨a, hafter, harmed.lastArm, Or.inl ⟨st, rfl, hlate, hbusy⟩⟩
  | dumped m hhold =>
    obtain ⟨cap, d, u, v, k, hcap, -, hordered, -, hfile⟩ := hhold.reconstructed hW hr hpre harm.config around
    refine ⟨a, hafter, hhold.armed.lastArm, Or.inr ⟨_, cap, d, u, v, k, rfl, ?_, hordered, hfile⟩⟩
    rw [capture_run]
    exact hcap

/-! ### A host on a counter -/

/-- The widths of the board. -/
def nets : Params := { byteRle with probeW := 32, probeW_pos := by decide, probeW_le := by decide }

/-- Nets that count, and the lines of the master for the next access of a script, if it is due. -/
def hostIn {R : Type} (s : Cmd R) (due : Bool) (n : ℕ) : BoardIn nets :=
  match s, due with
  | .write a d _, true => ⟨BitVec.ofNat 32 n, a, false, true, d, 0, false⟩
  | .read a _, true => ⟨BitVec.ofNat 32 n, a, true, false, 0, 0, false⟩
  | _, _ => ⟨BitVec.ofNat 32 n, 0, false, false, 0, 0, false⟩

/-- The rest of the script after a cycle; `data` are read data. -/
def hostNext {R : Type} (s : Cmd R) (due : Bool) (data : BitVec 32) : Cmd R :=
  match s, due with
  | .write _ _ s, false => s
  | .read _ k, false => k data
  | s, _ => s

/-- A board that a host plays a script on, with an access every other cycle: the board, the rest of
the script, and whether an access is due. -/
def hostRun {R : Type} (b : Board nets) (s : Cmd R) : ℕ → Board nets × Cmd R × Bool
  | 0 => (b, s, true)
  | n + 1 =>
    let x := hostRun b s n
    (x.1.step (hostIn x.2.1 x.2.2 n), hostNext x.2.1 x.2.2 x.1.rdHold, !x.2.2)

section
variable {R : Type} (b : Board nets) (s : Cmd R)

/-- The inputs of that board. -/
def hosted (n : ℕ) : BoardIn nets := hostIn (hostRun b s n).2.1 (hostRun b s n).2.2 n

theorem run_hosted (n : ℕ) : run b (hosted b s) n = (hostRun b s n).1 := by
  induction n with
  | zero => rfl
  | succ n ih =>
    rw [run, trace_succ, ← run, ih]
    rfl

theorem hostIn_idle (s : Cmd R) (n : ℕ) : (hostIn s false n).accepted = none := by
  cases s <;> exact BoardIn.accepted_idle rfl rfl

theorem orderly_hosted : Orderly (hosted b s) where
  single n h := by
    unfold hosted hostIn at h ⊢
    split at h
    · cases h
    · rfl
    · cases h
  gap n d h := by
    cases hdue : (hostRun b s n).2.2 with
    | false =>
      rw [hosted, hdue, hostIn_idle] at h
      cases h
    | true =>
      rw [hosted, hostRun, hdue]
      exact hostIn_idle _ _

/-- Two cycles of the host. -/
theorem hosted_turn {t : ℕ} (hdue : (hostRun b s t).2.2 = true) : (hosted b s (t + 1)).accepted = none ∧
    (hostRun b s (t + 2)).2.2 = true ∧
    (hostRun b s (t + 2)).2.1 = hostNext (hostRun b s t).2.1 false (run b (hosted b s) (t + 1)).rdHold := by
  have hrest : (hostRun b s (t + 1)).2.1 = (hostRun b s t).2.1 := by
    change hostNext (hostRun b s t).2.1 (hostRun b s t).2.2 _ = _
    rw [hdue]
    cases (hostRun b s t).2.1 <;> rfl
  have hlast : (hostRun b s (t + 1)).2.2 = false := by
    change (!(hostRun b s t).2.2) = false
    rw [hdue]
    rfl
  refine ⟨?_, ?_, ?_⟩
  · rw [hosted, hlast]
    exact hostIn_idle _ _
  · change (!(hostRun b s (t + 1)).2.2) = true
    rw [hlast]
    rfl
  · change hostNext (hostRun b s (t + 1)).2.1 (hostRun b s (t + 1)).2.2 (hostRun b s (t + 1)).1.rdHold = _
    rw [hrest, hlast, run_hosted]

/-- The host plays the script to its end. -/
theorem plays_hosted {s' : Cmd R} {t : ℕ} (hs : (hostRun b s t).2.1 = s') (hdue : (hostRun b s t).2.2 = true) :
    ∃ n r, Plays (signals b (hosted b s)) t s' n r := by
  induction s' generalizing t with
  | done r => exact ⟨t, r, .done t r⟩
  | write a d s' ih =>
    obtain ⟨hidle, hdue', hrest⟩ := hosted_turn b s hdue
    have hnow : (hosted b s t).accepted = some (.write a d) := by
      rw [hosted, hs, hdue, hostIn, BoardIn.accepted, BoardIn.muxWaitrequest, ite_self]
      rfl
    rw [hs] at hrest
    obtain ⟨n, r, hplay⟩ := ih hrest hdue'
    obtain ⟨n, hplay⟩ := hplay.earlier hidle
    exact ⟨n, r, .write ⟨le_rfl, fun v h₁ h₂ => by omega, hnow⟩ hplay⟩
  | read a k ih =>
    obtain ⟨hidle, hdue', hrest⟩ := hosted_turn b s hdue
    have hin : hosted b s t = ⟨BitVec.ofNat 32 t, a, true, false, 0, 0, false⟩ := by rw [hosted, hs, hdue, hostIn]
    have hwait : (hosted b s t).muxWaitrequest = false := by
      rw [hin, BoardIn.muxWaitrequest]
      exact ite_self _
    have hnow : (hosted b s t).accepted = some (.read a) := by
      rw [BoardIn.accepted, hwait, hin]
      rfl
    have hdata : (run b (hosted b s) (t + 1)).mReaddata = some (run b (hosted b s) (t + 1)).rdHold := by
      have hvalid : (run b (hosted b s) (t + 1)).rdvQ = true := by
        change ((hosted b s t).mRead && !(hosted b s t).muxWaitrequest) = true
        rw [hwait, hin]
        rfl
      rw [mReaddata, hvalid, if_pos rfl]
    rw [hs] at hrest
    obtain ⟨n, r, hplay⟩ := ih _ hrest hdue'
    refine ⟨n, r, .read ⟨le_rfl, fun v h₁ h₂ => by omega, hnow⟩
      ⟨Nat.lt_succ_self t, fun w h₁ h₂ => by omega, hdata, fun w h₁ h₂ => ?_⟩ hplay⟩
    rw [show w = t + 1 by omega]
    exact hidle

end

/-- The script after an arm that nobody waited for. -/
theorem script_exports_count :
    let b := start (Capture.blank nets) 0
    let inp := hosted b ((wr32 sCtrl 0x1).bind fun _ => scopeCapture (128 : ℕ) 1)
    ∃ t n r a, Plays (signals b inp) t (scopeCapture (128 : ℕ) 1) n r ∧ t ≤ a ∧
      Core.LastArm (Capture.blank nets).core (coreInp (Capture.blank nets) (captureInp b inp)) a n ∧
      ((∃ st, r = .never st ∧ a + 400000 ≤ n ∧
          ∀ v, a < v → v ≤ a + 400000 → stAt (Capture.blank nets) (captureInp b inp) v ≠ .done) ∨
        ∃ text cap d u v k, r = .dumped text ∧
          decodeDrain (parseAll (run b inp n).capture.core.dump) 32 128 = .ok cap ∧
          TimeOrdered (Capture.blank nets) (captureInp b inp) a d u v k cap ∧
          reconstructMain text 40 = some (focus 40 (cap.samples.map fun s : ℕ => (s : ℤ), cap.trigPos))) := by
  intro b inp
  obtain ⟨n, r, hplay⟩ := plays_hosted b ((wr32 sCtrl 0x1).bind fun _ => scopeCapture (128 : ℕ) 1) (t := 0) rfl rfl
  obtain ⟨t, -, -, hplay⟩ := Plays.bind.mp hplay
  obtain ⟨a, ha, hlast, hends⟩ := script_exports rfl rfl (Capture.blank nets) 0 128 (by decide) 1 40 inp
    (orderly_hosted _ _) t n r hplay
  exact ⟨t, n, r, a, hplay, ha, hlast, hends⟩

end Board

end FpgaScope
