import FpgaScope.Lib.Ring
import FpgaScope.Lib.Trace
import FpgaScope.Rtl.FifoAsync

/-! `prim_fifo_async` loses nothing. The pointers in a synchronizer chain are old
values of the other side's counter, newest first, so each side sees the other one
late but in order; full and empty decided from them err on the safe side. -/

namespace FpgaScope

open Clocked

/-! ### Old copies in a synchronizer chain -/

/-- The chain holds gray codes of counter values that fall from stage to stage,
from at most `hi` down to `lo` in the last one. -/
def Lag {w stages : ℕ} (s : FfSync w stages) (hi lo : ℕ) : Prop :=
  ∃ c : ℕ → ℕ, Antitone c ∧ c 0 ≤ hi ∧ c (stages - 1) = lo ∧
    ∀ i : Fin stages, s.syncQ i = gray (BitVec.ofNat w (c i))

namespace Lag

variable {w stages hi hi' lo : ℕ} {s : FfSync w stages}

theorem reset : Lag (.reset : FfSync w stages) 0 0 :=
  ⟨fun _ => 0, fun _ _ _ => le_rfl, le_rfl, rfl, fun _ => by simp [FfSync.reset, gray]⟩

theorem le (h : Lag s hi lo) : lo ≤ hi := by
  obtain ⟨c, hc, h0, rfl, -⟩ := h
  exact (hc (Nat.zero_le _)).trans h0

theorem mono (h : Lag s hi lo) (hle : hi ≤ hi') : Lag s hi' lo := by
  obtain ⟨c, hc, h0, hlast, hq⟩ := h
  exact ⟨c, hc, h0.trans hle, hlast, hq⟩

theorem q (h : Lag s hi lo) (hs : 1 ≤ stages) : s.q hs = gray (BitVec.ofNat w lo) := by
  obtain ⟨c, -, -, rfl, hq⟩ := h
  exact hq _

/-- A newer sample pushes the copies one stage on. -/
theorem step (h : Lag s hi lo) (hle : hi ≤ hi') :
    ∃ lo', lo ≤ lo' ∧ Lag (s.step (gray (BitVec.ofNat w hi'))) hi' lo' := by
  obtain ⟨c, hc, h0, rfl, hq⟩ := h
  let c' : ℕ → ℕ := fun i => if i = 0 then hi' else c (i - 1)
  have hanti : Antitone c' := by
    refine antitone_nat_of_succ_le fun i => ?_
    cases i with
    | zero => simpa [c'] using h0.trans hle
    | succ i => simpa [c'] using hc (Nat.le_succ i)
  refine ⟨c' (stages - 1), ?_, c', hanti, le_rfl, rfl, fun i => ?_⟩
  · by_cases hz : stages - 1 = 0
    · simp only [c', hz, ↓reduceIte]
      exact h0.trans hle
    · simp only [c', hz, ↓reduceIte]
      exact hc (Nat.sub_le _ _)
  · by_cases hi0 : i.val = 0
    · simp [FfSync.step, c', hi0]
    · simp [FfSync.step, c', hi0, hq]

end Lag

namespace FifoAsync

variable {p : FifoParams}

/-! ### The invariant -/

/-- Words taken out of the RAM: the popped ones and the one in the output register. -/
def issued (f : FifoAsync p) (popped : List (BitVec p.width)) : ℕ :=
  popped.length + f.rd.outVld.toNat

/-- The state of the FIFO after the words `pushed` went in and `popped` came out. -/
structure Inv (f : FifoAsync p) (pushed popped : List (BitVec p.width)) : Prop where
  wbin : f.wr.wbin = BitVec.ofNat p.ptrW pushed.length
  wgray : f.wr.wgray = gray f.wr.wbin
  rbin : f.rd.rbin = BitVec.ofNat p.ptrW (f.issued popped)
  rgray : f.rd.rgray = gray f.rd.rbin
  full : ∃ r, Lag f.wr.wqRgray (f.issued popped) r ∧ pushed.length ≤ r + p.depth ∧
    (f.wr.wfull = false → pushed.length < r + p.depth)
  empty : ∃ w, Lag f.rd.rqWgray pushed.length w ∧ f.issued popped ≤ w ∧
    (f.rd.ramEmpty = false → f.issued popped < w)
  slots : Ring.Holds (fun o => f.mem (BitVec.ofNat p.depthLog2 o)) p.depth pushed
    (f.issued popped) pushed.length
  order : popped <+: pushed
  front : f.rd.outVld = true → pushed[popped.length]? = some f.rd.rdData

namespace Inv

variable {f : FifoAsync p} {pushed popped : List (BitVec p.width)}

theorem reset (f : FifoAsync p) : Inv f.reset [] [] where
  wbin := rfl
  wgray := by simp [FifoAsync.reset, gray]
  rbin := rfl
  rgray := by simp [FifoAsync.reset, gray]
  full := ⟨0, Lag.reset, Nat.zero_le _, by simp [FifoAsync.reset]⟩
  empty := ⟨0, Lag.reset, le_rfl, by simp [FifoAsync.reset]⟩
  slots := Ring.Holds.empty _ _ _ 0
  order := List.nil_prefix
  front := by simp [FifoAsync.reset]

/-- At most the RAM and the output register are occupied. -/
theorem held_le (h : Inv f pushed popped) : pushed.length ≤ popped.length + p.depth + 1 := by
  obtain ⟨r, hlag, hle, -⟩ := h.full
  have hr := hlag.le
  have hb : f.rd.outVld.toNat ≤ 1 := Bool.toNat_le _
  unfold issued at hr
  omega

/-- A slot that is written has been read: the word one turn back is out of the RAM. -/
theorem push_room (h : Inv f pushed popped) {wrValid : Bool} (hp : f.push wrValid = true) :
    pushed.length < f.issued popped + p.depth := by
  obtain ⟨r, hlag, -, hlt⟩ := h.full
  have hr := hlag.le
  simp only [push, wrReady, Bool.and_eq_true, Bool.not_eq_true'] at hp
  have := hlt hp.2
  omega

end Inv

/-! ### One event -/

variable {f : FifoAsync p} {pushed popped : List (BitVec p.width)}

/-- A counter that moves by at most one reads as its old or its new value. -/
theorem resolve_counter {w n n' : ℕ} (h : n ≤ n') (h' : n' ≤ n + 1) (sel : BitVec w) :
    ∃ x, n ≤ x ∧ x ≤ n' ∧
      resolve (gray (BitVec.ofNat w n)) (gray (BitVec.ofNat w n')) sel = gray (BitVec.ofNat w x) := by
  rcases Nat.eq_or_lt_of_le h with rfl | hlt
  · exact ⟨n, le_rfl, le_rfl, resolve_self _ _⟩
  · obtain rfl : n' = n + 1 := by omega
    rw [BitVec.ofNat_add]
    rcases resolve_gray (BitVec.ofNat w n) sel with hr | hr
    · exact ⟨n, le_rfl, by omega, hr⟩
    · exact ⟨n + 1, by omega, le_rfl, by rw [hr, BitVec.ofNat_add]⟩

theorem ofNat_add_ofBool (w n : ℕ) (b : Bool) :
    BitVec.ofNat w n + (BitVec.ofBool b).setWidth w = BitVec.ofNat w (n + b.toNat) := by
  rw [Ring.setWidth_ofBool, ← BitVec.ofNat_add]

/-- The full test hits the pointer half a turn ahead. -/
theorem gray_add_depth (p : FifoParams) (r : ℕ) :
    gray (BitVec.ofNat p.ptrW (r + p.depth)) = gray (BitVec.ofNat p.ptrW r) ^^^ p.top2Mask := by
  rw [BitVec.ofNat_add]
  exact gray_add_half p.depthLog2 p.depthLog2_pos _

/-- Slot `n % DEPTH` is addressed by the low bits of the pointer. -/
theorem slot_of_ptr (p : FifoParams) (n : ℕ) :
    (BitVec.ofNat p.ptrW n).setWidth p.depthLog2 = BitVec.ofNat p.depthLog2 (n % p.depth) := by
  apply BitVec.eq_of_toNat_eq
  rw [BitVec.toNat_setWidth, BitVec.toNat_ofNat, BitVec.toNat_ofNat, FifoParams.depth, Nat.mod_mod,
    Nat.mod_mod_of_dvd _ (pow_dvd_pow 2 (Nat.le_succ _))]

/-- Words pushed and words taken out of the RAM at an event. -/
def pushes (f : FifoAsync p) (e : FifoEvent p) : Bool := e.wclk && f.push e.wrValid

def issues (f : FifoAsync p) (e : FifoEvent p) : Bool := e.rclk && f.rdIssue e.rdReady

def pops (f : FifoAsync p) (e : FifoEvent p) : Bool := e.rclk && f.pop e.rdReady

theorem pushedWord_eq (f : FifoAsync p) (e : FifoEvent p) :
    f.pushedWord e = if f.pushes e then some e.wrData else none := rfl

theorem poppedWord_eq (f : FifoAsync p) (e : FifoEvent p) :
    f.poppedWord e = if f.pops e then some f.rd.rdData else none := rfl

theorem step_mem (f : FifoAsync p) (e : FifoEvent p) :
    (f.step e).mem = if f.pushes e then
      Function.update f.mem (f.wr.wbin.setWidth p.depthLog2) e.wrData else f.mem := rfl

theorem step_rdData (f : FifoAsync p) (e : FifoEvent p) : (f.step e).rd.rdData =
    if f.issues e then f.mem (f.rd.rbin.setWidth p.depthLog2) else f.rd.rdData := by
  rw [step, issues]
  cases e.rclk <;> rfl

theorem step_outVld (f : FifoAsync p) (e : FifoEvent p) : (f.step e).rd.outVld =
    if f.issues e then true else if f.pops e then false else f.rd.outVld := by
  rw [step, issues, pops]
  cases e.rclk <;> rfl

theorem outVld_of_pops {f : FifoAsync p} {e : FifoEvent p} (h : f.pops e = true) :
    f.rd.outVld = true := by
  simp only [pops, pop, rdValid, Bool.and_eq_true] at h
  exact h.2.1

theorem length_pushedWord (f : FifoAsync p) (e : FifoEvent p) (pushed : List (BitVec p.width)) :
    (pushed ++ (f.pushedWord e).toList).length = pushed.length + (f.pushes e).toNat := by
  rw [List.length_append, pushedWord_eq]
  cases f.pushes e <;> rfl

theorem length_poppedWord (f : FifoAsync p) (e : FifoEvent p) (popped : List (BitVec p.width)) :
    (popped ++ (f.poppedWord e).toList).length = popped.length + (f.pops e).toNat := by
  rw [List.length_append, poppedWord_eq]
  cases f.pops e <;> rfl

/-- A word is prefetched only into a register that is empty or being popped. -/
theorem pops_of_issues {f : FifoAsync p} {e : FifoEvent p} (h : f.issues e = true) :
    f.rd.outVld = false ∨ f.pops e = true := by
  simp only [issues, rdIssue, Bool.and_eq_true, Bool.or_eq_true, Bool.not_eq_true'] at h
  rw [pops, h.1, Bool.true_and]
  exact h.2.2

theorem issued_step (f : FifoAsync p) (e : FifoEvent p) (popped : List (BitVec p.width)) :
    (f.step e).issued (popped ++ (f.poppedWord e).toList) =
      f.issued popped + (f.issues e).toNat := by
  rw [issued, issued, length_poppedWord, step_outVld]
  cases hp : f.pops e with
  | true =>
    rw [outVld_of_pops hp]
    cases f.issues e <;> simp
  | false =>
    cases hi : f.issues e with
    | true =>
      rcases pops_of_issues hi with ho | ho
      · simp [ho]
      · rw [hp] at ho
        cases ho
    | false => simp

namespace Inv

variable (h : Inv f pushed popped) (e : FifoEvent p)
include h

theorem wbin_step : (f.step e).wr.wbin =
    BitVec.ofNat p.ptrW (pushed ++ (f.pushedWord e).toList).length := by
  rw [length_pushedWord, pushes, step]
  cases e.wclk with
  | false => simpa using h.wbin
  | true =>
    simp only [↓reduceIte, wrStep, wbinNext, Bool.true_and]
    rw [h.wbin, ofNat_add_ofBool]

theorem rbin_step : (f.step e).rd.rbin =
    BitVec.ofNat p.ptrW ((f.step e).issued (popped ++ (f.poppedWord e).toList)) := by
  rw [issued_step, issues, step]
  cases e.rclk with
  | false => simpa using h.rbin
  | true =>
    simp only [↓reduceIte, rdStep, rbinNext, Bool.true_and]
    rw [h.rbin, ofNat_add_ofBool]

theorem wgray_step : (f.step e).wr.wgray = gray (f.step e).wr.wbin := by
  rw [step]
  cases e.wclk with
  | false => simpa using h.wgray
  | true => rfl

theorem rgray_step : (f.step e).rd.rgray = gray (f.step e).rd.rbin := by
  rw [step]
  cases e.rclk with
  | false => simpa using h.rgray
  | true => rfl

omit h in
theorem wgrayAfter_eq : f.wgrayAfter e = (f.step e).wr.wgray := by
  rw [wgrayAfter, step]
  cases e.wclk <;> rfl

omit h in
theorem rgrayAfter_eq : f.rgrayAfter e = (f.step e).rd.rgray := by
  rw [rgrayAfter, step]
  cases e.rclk <;> rfl

/-- The write side never sees the read pointer ahead of the truth, and counts as
full whenever it might be. -/
theorem full_step : ∃ r, Lag (f.step e).wr.wqRgray
      ((f.step e).issued (popped ++ (f.poppedWord e).toList)) r ∧
    (pushed ++ (f.pushedWord e).toList).length ≤ r + p.depth ∧
    ((f.step e).wr.wfull = false →
      (pushed ++ (f.pushedWord e).toList).length < r + p.depth) := by
  obtain ⟨r, hlag, hle, hlt⟩ := h.full
  have hmono : f.issued popped ≤ (f.step e).issued (popped ++ (f.poppedWord e).toList) := by
    rw [issued_step]
    omega
  cases hw : e.wclk with
  | false =>
    have hsame : (f.step e).wr = f.wr := by simp [step, hw]
    rw [hsame, length_pushedWord, pushes, hw]
    exact ⟨r, hlag.mono hmono, hle, hlt⟩
  | true =>
    have hr : (f.step e).rd.rgray =
        gray (BitVec.ofNat p.ptrW ((f.step e).issued (popped ++ (f.poppedWord e).toList))) := by
      rw [h.rgray_step, h.rbin_step]
    obtain ⟨x, hx, hx', hres⟩ := resolve_counter hmono
      (by rw [issued_step]; have := Bool.toNat_le (f.issues e); omega) e.rgraySel
    obtain ⟨r', hr', hlag'⟩ := hlag.step hx
    have hside : (f.step e).wr = f.wrStep e.wrValid (gray (BitVec.ofNat p.ptrW x)) := by
      rw [← hres, ← hr, ← rgrayAfter_eq, ← h.rbin, ← h.rgray, step, hw, if_pos rfl]
    have hpush : (pushed ++ (f.pushedWord e).toList).length ≤ r + p.depth := by
      rw [length_pushedWord, pushes, hw, Bool.true_and]
      cases hp : f.push e.wrValid with
      | false => simpa using hle
      | true =>
        simp only [push, wrReady, Bool.and_eq_true, Bool.not_eq_true'] at hp
        exact hlt hp.2
    have hwbin := h.wbin_step e
    rw [hside] at hwbin ⊢
    refine ⟨r', hlag'.mono hx', by omega, fun hfull => ?_⟩
    have hne : (pushed ++ (f.pushedWord e).toList).length ≠ r + p.depth := by
      intro heq
      rw [heq] at hwbin
      change f.wbinNext e.wrValid = _ at hwbin
      simp only [wrStep, wgrayNext, hwbin, gray_add_depth, hlag.q, beq_self_eq_true] at hfull
      cases hfull
    omega

/-- The read side never sees the write pointer ahead of the truth, and counts as
empty whenever it might be. -/
theorem empty_step : ∃ w, Lag (f.step e).rd.rqWgray
      (pushed ++ (f.pushedWord e).toList).length w ∧
    (f.step e).issued (popped ++ (f.poppedWord e).toList) ≤ w ∧
    ((f.step e).rd.ramEmpty = false →
      (f.step e).issued (popped ++ (f.poppedWord e).toList) < w) := by
  obtain ⟨w, hlag, hle, hlt⟩ := h.empty
  have hmono : pushed.length ≤ (pushed ++ (f.pushedWord e).toList).length := by
    rw [length_pushedWord]
    omega
  cases hr : e.rclk with
  | false =>
    have hsame : (f.step e).rd = f.rd := by simp [step, hr]
    rw [issued_step, issues, hr, hsame]
    exact ⟨w, hlag.mono hmono, hle, hlt⟩
  | true =>
    have hw : (f.step e).wr.wgray =
        gray (BitVec.ofNat p.ptrW (pushed ++ (f.pushedWord e).toList).length) := by
      rw [h.wgray_step, h.wbin_step]
    obtain ⟨x, hx, hx', hres⟩ := resolve_counter hmono
      (by rw [length_pushedWord]; have := Bool.toNat_le (f.pushes e); omega) e.wgraySel
    obtain ⟨w', hw', hlag'⟩ := hlag.step hx
    have hside : (f.step e).rd = f.rdStep e.rdReady (gray (BitVec.ofNat p.ptrW x)) := by
      rw [← hres, ← hw, ← wgrayAfter_eq, ← h.wbin, ← h.wgray, step, hr, if_pos rfl]
    have hissue : (f.step e).issued (popped ++ (f.poppedWord e).toList) ≤ w := by
      rw [issued_step, issues, hr, Bool.true_and]
      cases hi : f.rdIssue e.rdReady with
      | false => simpa using hle
      | true =>
        simp only [rdIssue, Bool.and_eq_true, Bool.not_eq_true'] at hi
        exact hlt hi.1
    have hrbin := h.rbin_step e
    rw [hside] at hrbin
    refine ⟨w', by rw [hside]; exact hlag'.mono hx', by omega, fun hempty => ?_⟩
    have hne : (f.step e).issued (popped ++ (f.poppedWord e).toList) ≠ w := by
      intro heq
      rw [heq] at hrbin
      change f.rbinNext e.rdReady = _ at hrbin
      rw [hside] at hempty
      simp only [rdStep, rgrayNext, hrbin, hlag.q, beq_self_eq_true] at hempty
      cases hempty
    omega

/-- A push goes to a free slot, and what is still unread stays. -/
theorem slots_step : Ring.Holds (fun o => (f.step e).mem (BitVec.ofNat p.depthLog2 o)) p.depth
    (pushed ++ (f.pushedWord e).toList) ((f.step e).issued (popped ++ (f.poppedWord e).toList))
    (pushed ++ (f.pushedWord e).toList).length := by
  have hle : f.issued popped ≤ (f.step e).issued (popped ++ (f.poppedWord e).toList) := by
    rw [issued_step]
    omega
  refine Ring.Holds.weaken ?_ hle
  cases hp : f.pushes e with
  | false =>
    rw [step_mem, pushedWord_eq, hp, if_neg (by simp), if_neg (by simp), Option.toList_none,
      List.append_nil]
    exact h.slots
  | true =>
    have hroom : pushed.length < f.issued popped + p.depth := by
      simp only [pushes, Bool.and_eq_true] at hp
      exact h.push_room hp.2
    rw [step_mem, pushedWord_eq, hp, if_pos rfl, if_pos rfl, h.wbin, slot_of_ptr,
      Option.toList_some, List.length_append, List.length_singleton]
    refine (h.slots.append _).push hroom (by simp) (Function.update_self _ _ _) fun o ho hne => ?_
    apply Function.update_of_ne
    intro heq
    have heq' := congrArg BitVec.toNat heq
    rw [BitVec.toNat_ofNat, BitVec.toNat_ofNat, FifoParams.depth, Nat.mod_mod] at heq'
    rw [Nat.mod_eq_of_lt (show o < 2 ^ p.depthLog2 from ho)] at heq'
    exact hne heq'

/-- The word that is prefetched is the next one in order. -/
theorem issued_word (hi : f.issues e = true) :
    pushed[f.issued popped]? = some (f.mem (f.rd.rbin.setWidth p.depthLog2)) := by
  obtain ⟨w, hlag, -, hlt⟩ := h.empty
  simp only [issues, rdIssue, Bool.and_eq_true, Bool.not_eq_true'] at hi
  have hle := hlag.le
  have hw := hlt hi.2.1
  rw [h.slots _ le_rfl (by omega), h.rbin, slot_of_ptr]

theorem order_step :
    popped ++ (f.poppedWord e).toList <+: pushed ++ (f.pushedWord e).toList := by
  refine List.IsPrefix.trans ?_ (List.prefix_append _ _)
  rw [poppedWord_eq]
  cases hp : f.pops e with
  | true =>
    obtain ⟨hlen, hget⟩ := List.getElem?_eq_some_iff.mp (h.front (outVld_of_pops hp))
    rw [if_pos rfl, Option.toList_some, ← hget]
    obtain ⟨t, rfl⟩ := h.order
    cases t with
    | nil => simp at hlen
    | cons x t => simp
  | false =>
    rw [if_neg (by simp), Option.toList_none, List.append_nil]
    exact h.order

theorem front_step (ho : (f.step e).rd.outVld = true) :
    (pushed ++ (f.pushedWord e).toList)[(popped ++ (f.poppedWord e).toList).length]? =
      some (f.step e).rd.rdData := by
  have hkeep : ∀ {i : ℕ} {x : BitVec p.width}, pushed[i]? = some x →
      (pushed ++ (f.pushedWord e).toList)[i]? = some x := by
    intro i x hx
    obtain ⟨hlt, -⟩ := List.getElem?_eq_some_iff.mp hx
    rw [List.getElem?_append_left hlt, hx]
  have hcount := issued_step f e popped
  rw [issued, ho, Bool.toNat_true] at hcount
  cases hi : f.issues e with
  | true =>
    have hword := hkeep (h.issued_word e hi)
    rw [hi, Bool.toNat_true] at hcount
    rw [step_rdData, hi, if_pos rfl, Nat.add_right_cancel hcount]
    exact hword
  | false =>
    rw [step_outVld, hi, if_neg (by simp)] at ho
    have hp : f.pops e = false := by
      by_contra hp
      simp [hp] at ho
    rw [hp, if_neg (by simp)] at ho
    rw [step_rdData, hi, if_neg (by simp), length_poppedWord, hp]
    exact hkeep (h.front ho)

/-- One event keeps the invariant. -/
theorem step : Inv (f.step e) (pushed ++ (f.pushedWord e).toList)
    (popped ++ (f.poppedWord e).toList) where
  wbin := h.wbin_step e
  wgray := h.wgray_step e
  rbin := h.rbin_step e
  rgray := h.rgray_step e
  full := h.full_step e
  empty := h.empty_step e
  slots := h.slots_step e
  order := h.order_step e
  front := h.front_step e

end Inv

/-! ### Runs -/

section
variable (f₀ : FifoAsync p) (ev : ℕ → FifoEvent p)

/-- The FIFO over a sequence of clock edges after a joint reset. -/
def run : ℕ → FifoAsync p := trace step f₀.reset ev

theorem run_succ (n : ℕ) : run f₀ ev (n + 1) = (run f₀ ev n).step (ev n) := rfl

/-- Words pushed before event `n`. -/
def pushedWords : ℕ → List (BitVec p.width) := collect fun k => pushedWord (run f₀ ev k) (ev k)

/-- Words popped before event `n`. -/
def poppedWords : ℕ → List (BitVec p.width) := collect fun k => poppedWord (run f₀ ev k) (ev k)

theorem inv_run (n : ℕ) : Inv (run f₀ ev n) (pushedWords f₀ ev n) (poppedWords f₀ ev n) :=
  invariant_of_step (fun n => Inv (run f₀ ev n) (pushedWords f₀ ev n) (poppedWords f₀ ev n))
    (Inv.reset f₀) (fun n h => h.step (ev n)) n

/-- `prim_fifo_async` is a lossless FIFO for every order of clock edges: the words
popped are a prefix of the words pushed, a push goes to a slot whose word was read
and unread words stay in their slots, at most the RAM and the output register are
occupied, and an offered word waits unchanged until it is taken. -/
theorem fifo_lossless (n : ℕ) :
    poppedWords f₀ ev n <+: pushedWords f₀ ev n ∧
    (pushes (run f₀ ev n) (ev n) = true →
      (pushedWords f₀ ev n).length < issued (run f₀ ev n) (poppedWords f₀ ev n) + p.depth) ∧
    (∀ i, issued (run f₀ ev n) (poppedWords f₀ ev n) ≤ i → i < (pushedWords f₀ ev n).length →
      (pushedWords f₀ ev n)[i]? =
        some ((run f₀ ev n).mem (BitVec.ofNat p.depthLog2 (i % 2 ^ p.depthLog2)))) ∧
    (pushedWords f₀ ev n).length ≤ (poppedWords f₀ ev n).length + (2 ^ p.depthLog2 + 1) ∧
    (rdValid (run f₀ ev n) = true → pops (run f₀ ev n) (ev n) = false →
      rdValid (run f₀ ev (n + 1)) = true ∧
        (run f₀ ev (n + 1)).rd.rdData = (run f₀ ev n).rd.rdData) := by
  have h := inv_run f₀ ev n
  refine ⟨h.order, fun hp => ?_, h.slots, ?_, fun hv hp => ?_⟩
  · simp only [pushes, Bool.and_eq_true] at hp
    exact h.push_room hp.2
  · have := h.held_le
    unfold FifoParams.depth at this
    omega
  · have hi : issues (run f₀ ev n) (ev n) = false := by
      by_contra hi
      rcases pops_of_issues (by simpa using hi) with ho | ho
      · rw [rdValid, ho] at hv
        cases hv
      · rw [hp] at ho
        cases ho
    rw [run_succ, rdValid, step_outVld, step_rdData, hi, hp, if_neg (by simp), if_neg (by simp), if_neg (by simp)]
    exact ⟨hv, rfl⟩

end

end FifoAsync

end FpgaScope
