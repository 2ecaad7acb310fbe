import FpgaScope.Link.Fifo

/-! `prim_fifo_async` delivers. A pointer runs through the synchronizer chain in as
many edges of the far clock as there are stages; from then on the far side cannot
take the RAM for empty, or for full, because of an old copy. So as long as both
clocks tick, what was pushed is offered and room is seen. -/

namespace FpgaScope

open Clocked

theorem gray_injective (w : ℕ) : Function.Injective (gray : BitVec w → BitVec w) := by
  intro x y h
  have hx : gray (x ^^^ y) = 0#w := by rw [gray_xor, h, BitVec.xor_self]
  exact BitVec.xor_eq_zero_iff.mp (eq_zero_of_gray _ hx)

/-! ### A value on its way through the chain -/

/-- The first `i` stages of the chain hold counter values from `N` on, none above `hi`. -/
def Reached {w stages : ℕ} (s : FfSync w stages) (hi N i : ℕ) : Prop :=
  ∃ c : ℕ → ℕ, Antitone c ∧ c 0 ≤ hi ∧ (∀ j < i, N ≤ c j) ∧
    ∀ j : Fin stages, s.syncQ j = gray (BitVec.ofNat w (c j))

namespace Reached

variable {w stages hi hi' N i : ℕ} {s : FfSync w stages}

theorem ofLag {lo : ℕ} (h : Lag s hi lo) (N : ℕ) : Reached s hi N 0 := by
  obtain ⟨c, hc, h0, -, hq⟩ := h
  exact ⟨c, hc, h0, fun j hj => absurd hj (Nat.not_lt_zero j), hq⟩

theorem mono (h : Reached s hi N i) (hle : hi ≤ hi') : Reached s hi' N i := by
  obtain ⟨c, hc, h0, hN, hq⟩ := h
  exact ⟨c, hc, h0.trans hle, hN, hq⟩

/-- With every sample the values move one stage on. -/
theorem step (h : Reached s hi N i) (hle : hi ≤ hi') (hN : N ≤ hi') :
    Reached (s.step (gray (BitVec.ofNat w hi'))) hi' N (i + 1) := by
  obtain ⟨c, hc, h0, hseen, hq⟩ := h
  let c' : ℕ → ℕ := fun j => if j = 0 then hi' else c (j - 1)
  have hanti : Antitone c' := by
    refine antitone_nat_of_succ_le fun j => ?_
    cases j with
    | zero => simpa [c'] using h0.trans hle
    | succ j => simpa [c'] using hc (Nat.le_succ j)
  refine ⟨c', hanti, le_rfl, fun j hj => ?_, fun j => ?_⟩
  · cases j with
    | zero => simpa [c'] using hN
    | succ j => simpa [c'] using hseen j (by omega)
  · by_cases hj0 : j.val = 0
    · simp [FfSync.step, c', hj0]
    · simp [FfSync.step, c', hj0, hq]

theorem weaken {i' : ℕ} (h : Reached s hi N i) (hle : i' ≤ i) : Reached s hi N i' := by
  obtain ⟨c, hc, h0, hN, hq⟩ := h
  exact ⟨c, hc, h0, fun j hj => hN j (by omega), hq⟩

/-- Out of the last stage comes a value from `N` on. -/
theorem q (h : Reached s hi N stages) (hs : 1 ≤ stages) :
    ∃ x, N ≤ x ∧ x ≤ hi ∧ s.q hs = gray (BitVec.ofNat w x) := by
  obtain ⟨c, hc, h0, hN, hq⟩ := h
  exact ⟨c (stages - 1), hN _ (by omega), (hc (Nat.zero_le _)).trans h0, hq _⟩

end Reached

namespace FifoAsync

variable {p : FifoParams}

/-- Pointers less than a turn apart are different. -/
theorem ptr_ne {x y : ℕ} (hlt : x < y) (hle : y ≤ x + p.depth) :
    gray (BitVec.ofNat p.ptrW x) ≠ gray (BitVec.ofNat p.ptrW y) := by
  intro h
  have hnat := congrArg BitVec.toNat (gray_injective _ h)
  rw [BitVec.toNat_ofNat, BitVec.toNat_ofNat] at hnat
  have hturn : 2 ^ p.ptrW = 2 * p.depth := pow_succ' 2 p.depthLog2
  have hpos : 0 < p.depth := Nat.two_pow_pos _
  obtain ⟨d, rfl⟩ : ∃ d, y = x + d := ⟨y - x, by omega⟩
  have hd : d % 2 ^ p.ptrW = 0 := by
    have hcong : (x + d) % 2 ^ p.ptrW = (x + 0) % 2 ^ p.ptrW := by rw [Nat.add_zero, hnat]
    have := Nat.ModEq.add_left_cancel' x hcong
    simpa [Nat.ModEq] using this
  rw [Nat.mod_eq_of_lt (by omega)] at hd
  omega

/-! ### One event -/

section
variable {f : FifoAsync p} {pushed popped : List (BitVec p.width)} (h : Inv f pushed popped)
  (e : FifoEvent p)
include h

/-- At an edge of the read clock the write pointer moves one stage on. -/
theorem reached_rd {N i : ℕ} (hN : N ≤ pushed.length) (hr : Reached f.rd.rqWgray pushed.length N i) :
    Reached (f.step e).rd.rqWgray (pushed ++ (f.pushedWord e).toList).length N (i + e.rclk.toNat) := by
  have hmono : pushed.length ≤ (pushed ++ (f.pushedWord e).toList).length := by
    rw [length_pushedWord]
    omega
  cases hc : e.rclk with
  | false =>
    have hsame : (f.step e).rd = f.rd := by simp [FifoAsync.step, hc]
    rw [hsame]
    exact hr.mono hmono
  | true =>
    have hw : (f.step e).wr.wgray =
        gray (BitVec.ofNat p.ptrW (pushed ++ (f.pushedWord e).toList).length) := by
      rw [h.wgray_step, h.wbin_step]
    obtain ⟨x, hx, hx', hres⟩ := resolve_counter hmono
      (by rw [length_pushedWord]; have := Bool.toNat_le (f.pushes e); omega) e.wgraySel
    have hside : (f.step e).rd = f.rdStep e.rdReady (gray (BitVec.ofNat p.ptrW x)) := by
      rw [← hres, ← hw, ← Inv.wgrayAfter_eq, ← h.wbin, ← h.wgray, FifoAsync.step, hc, if_pos rfl]
    rw [hside]
    exact (hr.step hx (hN.trans hx)).mono hx'

/-- At an edge of the write clock the read pointer moves one stage on. -/
theorem reached_wr {N i : ℕ} (hN : N ≤ f.issued popped)
    (hr : Reached f.wr.wqRgray (f.issued popped) N i) :
    Reached (f.step e).wr.wqRgray ((f.step e).issued (popped ++ (f.poppedWord e).toList)) N
      (i + e.wclk.toNat) := by
  have hmono : f.issued popped ≤ (f.step e).issued (popped ++ (f.poppedWord e).toList) := by
    rw [issued_step]
    omega
  cases hc : e.wclk with
  | false =>
    have hsame : (f.step e).wr = f.wr := by simp [FifoAsync.step, hc]
    rw [hsame]
    exact hr.mono hmono
  | true =>
    have hg : (f.step e).rd.rgray =
        gray (BitVec.ofNat p.ptrW ((f.step e).issued (popped ++ (f.poppedWord e).toList))) := by
      rw [h.rgray_step, h.rbin_step]
    obtain ⟨x, hx, hx', hres⟩ := resolve_counter hmono
      (by rw [issued_step]; have := Bool.toNat_le (f.issues e); omega) e.rgraySel
    have hside : (f.step e).wr = f.wrStep e.wrValid (gray (BitVec.ofNat p.ptrW x)) := by
      rw [← hres, ← hg, ← Inv.rgrayAfter_eq, ← h.rbin, ← h.rgray, FifoAsync.step, hc, if_pos rfl]
    rw [hside]
    exact (hr.step hx (hN.trans hx)).mono hx'

theorem held_ram : pushed.length ≤ f.issued popped + p.depth := by
  obtain ⟨r, hlag, hle, -⟩ := h.full
  have := hlag.le
  omega

theorem issued_le : f.issued popped ≤ pushed.length := by
  obtain ⟨w, hlag, hle, -⟩ := h.empty
  exact hle.trans hlag.le

/-- Once a pushed word is seen on the far side, the RAM does not count as empty
before that word is taken out. -/
theorem nonempty_seen {N : ℕ} (hr : Reached f.rd.rqWgray pushed.length N p.syncStages)
    (hc : e.rclk = true) (hlt : (f.step e).issued (popped ++ (f.poppedWord e).toList) < N) :
    (f.step e).rd.ramEmpty = false := by
  obtain ⟨x, hx, hx', hq⟩ := hr.q p.syncStages_pos
  have hram := held_ram h
  have hmono : f.issued popped ≤ (f.step e).issued (popped ++ (f.poppedWord e).toList) := by
    rw [issued_step]
    omega
  have hbin : f.rbinNext e.rdReady =
      BitVec.ofNat p.ptrW ((f.step e).issued (popped ++ (f.poppedWord e).toList)) := by
    rw [← h.rbin_step e, FifoAsync.step, hc]
    rfl
  have hne : f.rgrayNext e.rdReady ≠ f.rd.rqWgray.q p.syncStages_pos := by
    rw [rgrayNext, hbin, hq]
    exact ptr_ne (by omega) (by omega)
  rw [FifoAsync.step, hc, if_pos rfl]
  exact beq_false_of_ne hne

/-- Once a word taken out is seen on the near side, the RAM does not count as full
before its slot is used again. -/
theorem room_seen {N : ℕ} (hr : Reached f.wr.wqRgray (f.issued popped) N p.syncStages)
    (hc : e.wclk = true) (hlt : (pushed ++ (f.pushedWord e).toList).length < N + p.depth) :
    (f.step e).wr.wfull = false := by
  obtain ⟨x, hx, hx', hq⟩ := hr.q p.syncStages_pos
  have hle := issued_le h
  have hmono : pushed.length ≤ (pushed ++ (f.pushedWord e).toList).length := by
    rw [length_pushedWord]
    omega
  have hbin : f.wbinNext e.wrValid =
      BitVec.ofNat p.ptrW (pushed ++ (f.pushedWord e).toList).length := by
    rw [← h.wbin_step e, FifoAsync.step, hc]
    rfl
  have hne : f.wgrayNext e.wrValid ≠ f.wr.wqRgray.q p.syncStages_pos ^^^ p.top2Mask := by
    rw [wgrayNext, hbin, hq, ← gray_add_depth]
    exact ptr_ne (by omega) (by omega)
  rw [FifoAsync.step, hc, if_pos rfl]
  exact beq_false_of_ne hne

end

/-! ### Runs -/

section
variable (f₀ : FifoAsync p) (ev : ℕ → FifoEvent p)

theorem pushed_mono {m n : ℕ} (h : m ≤ n) :
    (pushedWords f₀ ev m).length ≤ (pushedWords f₀ ev n).length :=
  collect_length_mono _ h

theorem issued_mono {m n : ℕ} (h : m ≤ n) :
    (run f₀ ev m).issued (poppedWords f₀ ev m) ≤ (run f₀ ev n).issued (poppedWords f₀ ev n) := by
  induction n, h using Nat.le_induction with
  | base => exact le_rfl
  | succ n _ ih =>
    refine ih.trans ?_
    change _ ≤ ((run f₀ ev n).step (ev n)).issued
      (poppedWords f₀ ev n ++ ((run f₀ ev n).poppedWord (ev n)).toList)
    rw [issued_step]
    exact Nat.le_add_right _ _

/-- What is pushed now has crossed after as many edges of the read clock as there are stages. -/
theorem crosses_rd (hr : Recurs fun n => (ev n).rclk = true) (n i : ℕ) :
    ∃ m, n ≤ m ∧ ∀ k, m ≤ k → Reached (run f₀ ev k).rd.rqWgray (pushedWords f₀ ev k).length
      (pushedWords f₀ ev n).length i := by
  obtain ⟨w, hlag, -⟩ := (inv_run f₀ ev n).empty
  exact hr.climbs (Q := fun i k => Reached (run f₀ ev k).rd.rqWgray (pushedWords f₀ ev k).length
      (pushedWords f₀ ev n).length i) (.ofLag hlag _) (fun hle h => h.weaken hle)
    (fun k hk _ h => reached_rd (inv_run f₀ ev k) (ev k) (pushed_mono f₀ ev hk) h) i

/-- What is taken out now has crossed after as many edges of the write clock. -/
theorem crosses_wr (hw : Recurs fun n => (ev n).wclk = true) (n i : ℕ) :
    ∃ m, n ≤ m ∧ ∀ k, m ≤ k → Reached (run f₀ ev k).wr.wqRgray
      ((run f₀ ev k).issued (poppedWords f₀ ev k))
      ((run f₀ ev n).issued (poppedWords f₀ ev n)) i := by
  obtain ⟨r, hlag, -⟩ := (inv_run f₀ ev n).full
  exact hw.climbs (Q := fun i k => Reached (run f₀ ev k).wr.wqRgray
      ((run f₀ ev k).issued (poppedWords f₀ ev k))
      ((run f₀ ev n).issued (poppedWords f₀ ev n)) i) (.ofLag hlag _) (fun hle h => h.weaken hle)
    (fun k hk _ h => reached_wr (inv_run f₀ ev k) (ev k) (issued_mono f₀ ev hk) h) i

variable {f₀ ev}

/-- Registers of the read side wait for its clock. -/
theorem run_rd_held {n : ℕ} (h : ¬ (ev n).rclk = true) : (run f₀ ev (n + 1)).rd = (run f₀ ev n).rd := by
  rw [run_succ, step, if_neg h]

theorem run_wr_held {n : ℕ} (h : ¬ (ev n).wclk = true) : (run f₀ ev (n + 1)).wr = (run f₀ ev n).wr := by
  rw [run_succ, step, if_neg h]

/-- A word that waits is offered. -/
theorem offers (hr : Recurs fun n => (ev n).rclk = true) {n : ℕ}
    (hn : (poppedWords f₀ ev n).length < (pushedWords f₀ ev n).length) :
    ∃ m, n ≤ m ∧ (ev m).rclk = true ∧ rdValid (run f₀ ev m) = true := by
  by_contra hno
  -- a full output register would be seen at the next edge
  have hidle : ∀ k, n ≤ k → (run f₀ ev k).rd.outVld = false := by
    intro k hk
    by_contra hv
    obtain ⟨m, hm, hc, hvm⟩ := hr.reaches (Q := fun k => (run f₀ ev k).rd.outVld = true)
      (by simpa using hv) fun j _ hj hq => by rwa [run_rd_held hj]
    exact hno ⟨m, hk.trans hm, hc, hvm⟩
  have hpop : ∀ k, n ≤ k → poppedWords f₀ ev k = poppedWords f₀ ev n := by
    intro k hk
    induction k, hk using Nat.le_induction with
    | base => rfl
    | succ k hk ih =>
      refine (collect_none ?_).trans ih
      rw [poppedWord, pop, rdValid, hidle k hk, Bool.false_and, Bool.and_false, if_neg (by simp)]
  -- with the write pointer across, the RAM shows a word and the next edge fetches it
  obtain ⟨m, hm, hseen⟩ := crosses_rd f₀ ev hr n p.syncStages
  obtain ⟨a, ha, hca⟩ := hr m
  have hram : (run f₀ ev (a + 1)).rd.ramEmpty = false := by
    refine nonempty_seen (inv_run f₀ ev a) (ev a) (hseen a ha) hca ?_
    change (run f₀ ev (a + 1)).issued (poppedWords f₀ ev (a + 1)) < _
    rw [issued, hidle (a + 1) (by omega), hpop (a + 1) (by omega)]
    exact hn
  obtain ⟨b, hb, hcb, hramb⟩ := hr.reaches (Q := fun k => (run f₀ ev k).rd.ramEmpty = false) hram
    fun j _ hj hq => by rwa [run_rd_held hj]
  have hfetch : (run f₀ ev (b + 1)).rd.outVld = true := by
    rw [run_succ, step_outVld, issues, hcb, rdIssue, hramb, hidle b (by omega)]
    rfl
  rw [hidle (b + 1) (by omega)] at hfetch
  cases hfetch

/-- Nothing is pushed while the write side is shut at every edge. -/
theorem pushed_shut {n : ℕ}
    (h : ∀ k, n ≤ k → (ev k).wclk = true → wrReady (run f₀ ev k) = false) (k : ℕ) (hk : n ≤ k) :
    pushedWords f₀ ev k = pushedWords f₀ ev n := by
  induction k, hk using Nat.le_induction with
  | base => rfl
  | succ k hk ih =>
    refine (collect_none ?_).trans ih
    rw [pushedWord, if_neg]
    intro hc
    obtain ⟨hc, hp⟩ := Bool.and_eq_true_iff.mp hc
    rw [push, h k hk hc, Bool.and_false] at hp
    cases hp

/-- Room in the RAM is seen. -/
theorem accepts (hw : Recurs fun n => (ev n).wclk = true) {n : ℕ}
    (hn : (pushedWords f₀ ev n).length < (run f₀ ev n).issued (poppedWords f₀ ev n) + p.depth) :
    ∃ m, n ≤ m ∧ (ev m).wclk = true ∧ wrReady (run f₀ ev m) = true := by
  by_contra hno
  have hfull : ∀ k, n ≤ k → (ev k).wclk = true → wrReady (run f₀ ev k) = false := by
    intro k hk hc
    by_contra hv
    exact hno ⟨k, hk, hc, by simpa using hv⟩
  have hpush := pushed_shut hfull
  -- with the read pointer across, the write side sees the room at the next edge
  obtain ⟨m, hm, hseen⟩ := crosses_wr f₀ ev hw n p.syncStages
  obtain ⟨a, ha, hca⟩ := hw m
  have hroom : (run f₀ ev (a + 1)).wr.wfull = false := by
    refine room_seen (inv_run f₀ ev a) (ev a) (hseen a ha) hca ?_
    change (pushedWords f₀ ev (a + 1)).length < _
    rw [hpush (a + 1) (by omega)]
    exact hn
  obtain ⟨b, hb, hcb, hready⟩ := hw.reaches (Q := fun k => (run f₀ ev k).wr.wfull = false) hroom
    fun j _ hj hq => by rwa [run_wr_held hj]
  have hshut := hfull b (by omega) hcb
  rw [wrReady, hready] at hshut
  cases hshut

/-- An offered word waits for the reader, and goes when the reader is ready. -/
theorem pops_next (hready : Recurs fun n => (ev n).rclk = true ∧ (ev n).rdReady = true) {n : ℕ}
    (hv : rdValid (run f₀ ev n) = true) :
    ∃ m, n < m ∧ (poppedWords f₀ ev n).length < (poppedWords f₀ ev m).length := by
  have hlast : ∀ k, n ≤ k → ¬ ((ev k).rclk = true ∧ (ev k).rdReady = true) →
      rdValid (run f₀ ev k) = true → rdValid (run f₀ ev (k + 1)) = true := by
    intro k _ hno hvk
    have hpop : pops (run f₀ ev k) (ev k) = false := by
      rw [pops, pop, hvk, Bool.true_and]
      exact Bool.eq_false_iff.mpr fun hc => hno (Bool.and_eq_true_iff.mp hc)
    rw [run_succ, rdValid, step_outVld, hpop]
    change (run f₀ ev k).rd.outVld = true at hvk
    rw [hvk]
    split <;> rfl
  obtain ⟨m, hm, ⟨hc, hrd⟩, hvm⟩ := hready.reaches (Q := fun k => rdValid (run f₀ ev k) = true) hv hlast
  refine ⟨m + 1, by omega, ?_⟩
  have hone : (poppedWords f₀ ev (m + 1)).length = (poppedWords f₀ ev m).length + 1 := by
    rw [poppedWords, collect_some (x := (run f₀ ev m).rd.rdData), List.length_append,
      List.length_singleton]
    rw [poppedWord, hc, pop, hvm, hrd]
    rfl
  have hle : (poppedWords f₀ ev n).length ≤ (poppedWords f₀ ev m).length := collect_length_mono _ hm
  omega

/-- All that is pushed comes out, in the end. -/
theorem drains (hready : Recurs fun n => (ev n).rclk = true ∧ (ev n).rdReady = true) (n : ℕ) :
    ∃ m, n ≤ m ∧ pushedWords f₀ ev n <+: poppedWords f₀ ev m := by
  have hr : Recurs fun n => (ev n).rclk = true := fun n => by
    obtain ⟨m, hm, hc, -⟩ := hready n
    exact ⟨m, hm, hc⟩
  -- count up to the number of pushed words
  have hcount : ∀ N ≤ (pushedWords f₀ ev n).length, ∃ m, n ≤ m ∧ N ≤ (poppedWords f₀ ev m).length := by
    intro N
    induction N with
    | zero => exact fun _ => ⟨n, le_rfl, Nat.zero_le _⟩
    | succ N ih =>
      intro hN
      obtain ⟨m, hm, hle⟩ := ih (by omega)
      rcases Nat.lt_or_ge N (poppedWords f₀ ev m).length with hlt | hge
      · exact ⟨m, hm, hlt⟩
      have hpm : (pushedWords f₀ ev n).length ≤ (pushedWords f₀ ev m).length := pushed_mono f₀ ev hm
      have hwait : (poppedWords f₀ ev m).length < (pushedWords f₀ ev m).length := by omega
      obtain ⟨k, hk, -, hv⟩ := offers hr hwait
      obtain ⟨j, hj, hlt⟩ := pops_next hready hv
      have hmk : (poppedWords f₀ ev m).length ≤ (poppedWords f₀ ev k).length := collect_length_mono _ hk
      exact ⟨j, by omega, by omega⟩
  obtain ⟨m, hm, hle⟩ := hcount _ le_rfl
  exact ⟨m, hm, List.prefix_of_prefix_length_le (collect_mono _ hm) (inv_run f₀ ev m).order hle⟩

end

/-- `prim_fifo_async` delivers, for every order of clock edges in which both clocks keep
ticking: a word that waits is offered at an edge of the read clock, room is seen at an
edge of the write clock, and with a reader that is ready again and again everything
pushed comes out and there is room again and again. -/
theorem fifo_delivers (f₀ : FifoAsync p) (ev : ℕ → FifoEvent p)
    (hw : Recurs fun n => (ev n).wclk = true) (hr : Recurs fun n => (ev n).rclk = true) :
    (∀ n, (poppedWords f₀ ev n).length < (pushedWords f₀ ev n).length →
      ∃ m, n ≤ m ∧ (ev m).rclk = true ∧ rdValid (run f₀ ev m) = true) ∧
    (∀ n, (pushedWords f₀ ev n).length < (poppedWords f₀ ev n).length + 2 ^ p.depthLog2 →
      ∃ m, n ≤ m ∧ (ev m).wclk = true ∧ wrReady (run f₀ ev m) = true) ∧
    ((Recurs fun n => (ev n).rclk = true ∧ (ev n).rdReady = true) →
      (∀ n, ∃ m, n ≤ m ∧ pushedWords f₀ ev n <+: poppedWords f₀ ev m) ∧
      Recurs fun n => (ev n).wclk = true ∧ wrReady (run f₀ ev n) = true) := by
  have haccept : ∀ n, (pushedWords f₀ ev n).length < (poppedWords f₀ ev n).length + 2 ^ p.depthLog2 →
      ∃ m, n ≤ m ∧ (ev m).wclk = true ∧ wrReady (run f₀ ev m) = true := fun n hn =>
    accepts hw (by unfold issued FifoParams.depth; omega)
  refine ⟨fun n hn => offers hr hn, haccept, fun hready => ⟨drains hready, fun n => ?_⟩⟩
  -- if not, nothing more is pushed, so everything comes out and there is room
  by_contra hno
  have hshut : ∀ k, n ≤ k → (ev k).wclk = true → wrReady (run f₀ ev k) = false := by
    intro k hk hc
    by_contra hv
    exact hno ⟨k, hk, hc, by simpa using hv⟩
  have hout : ∃ m, n ≤ m ∧ pushedWords f₀ ev n <+: poppedWords f₀ ev m := drains hready n
  obtain ⟨m, hm, hall⟩ := hout
  have hle := hall.length_le
  rw [← pushed_shut hshut m hm] at hle
  have hpos : 0 < 2 ^ p.depthLog2 := Nat.two_pow_pos _
  obtain ⟨k, hk, hc, hready'⟩ := haccept m (by omega)
  rw [hshut k (hm.trans hk) hc] at hready'
  cases hready'

/-- Eight bytes and three synchronizer stages. -/
def eightBytes : FifoParams where
  width := 8
  depthLog2 := 3
  syncStages := 3
  depthLog2_pos := by decide
  syncStages_pos := by decide

/-- Registers to reset. -/
def blank (p : FifoParams) : FifoAsync p where
  wr := { wbin := 0, wgray := 0, wqRgray := .reset, wfull := true }
  rd := { rbin := 0, rgray := 0, rqWgray := .reset, ramEmpty := true, outVld := false, rdData := 0 }
  mem := fun _ => 0

/-- The clocks take turns, both sides always ready. -/
def turnsEv (n : ℕ) : FifoEvent eightBytes where
  wclk := n % 2 == 0
  wrValid := true
  wrData := BitVec.ofNat 8 n
  rclk := n % 2 == 1
  rdReady := true
  rgraySel := 0
  wgraySel := 0

theorem turnsEv_delivered :
    (∀ n, ∃ m, n ≤ m ∧ pushedWords (blank _) turnsEv n <+: poppedWords (blank _) turnsEv m) ∧
      Recurs fun n => (turnsEv n).wclk = true ∧ wrReady (run (blank _) turnsEv n) = true :=
  (fifo_delivers (blank _) turnsEv (fun n => ⟨2 * n, by omega, by simp [turnsEv]⟩)
    (fun n => ⟨2 * n + 1, by omega, by simp [turnsEv]⟩)).2.2
    (fun n => ⟨2 * n + 1, by omega, by simp [turnsEv]⟩)

end FifoAsync

end FpgaScope
