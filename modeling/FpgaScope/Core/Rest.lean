import FpgaScope.Core.Steps

/-! A core that is not capturing. At rest it holds its buffer, its metadata and its status
until it is armed; only the timestamp and the read registers move on. -/

namespace FpgaScope.Core

variable {W L T : ℕ}

/-- The core holds what it held before: only `ts` and the read registers move on. -/
structure Parked (a b : Core W L T) : Prop where
  st : b.st = a.st
  triggered : b.triggered = a.triggered
  wrapped : b.wrapped = a.wrapped
  windowsDone : b.windowsDone = a.windowsDone
  trigIndex : b.trigIndex = a.trigIndex
  tsAtTrig : b.tsAtTrig = a.tsAtTrig
  buf : b.uBuf.mem = a.uBuf.mem
  winMeta : b.uWinMeta.mem = a.uWinMeta.mem

theorem Parked.refl (a : Core W L T) : a.Parked a :=
  ⟨rfl, rfl, rfl, rfl, rfl, rfl, rfl, rfl⟩

theorem Parked.trans {a b c : Core W L T} (h : a.Parked b) (h' : b.Parked c) :
    a.Parked c :=
  ⟨h'.st.trans h.st, h'.triggered.trans h.triggered, h'.wrapped.trans h.wrapped,
    h'.windowsDone.trans h.windowsDone, h'.trigIndex.trans h.trigIndex,
    h'.tsAtTrig.trans h.tsAtTrig, h'.buf.trans h.buf, h'.winMeta.trans h.winMeta⟩

/-- `IDLE`, or `DONE` with all windows captured. -/
def Rests (c : Core W L T) : Prop :=
  c.st = .idle ∨ (c.st = .done ∧ ¬ c.windowsDone < c.windowsQ)

/-- Outside a capture the datapath moves nothing but the timestamp and the read registers. -/
theorem datapath_parked {c : Core W L T} (i : CoreIn W L) (hst : c.st = .idle ∨ c.st = .done) :
    c.Parked (datapath c i) := by
  have hwr := captureWr_quiet i hst
  have hacc : trigAccept c i = false :=
    trigAccept_of_ne i (by rcases hst with hs | hs <;> rw [hs] <;> decide)
  have hdone : windowDoneNow c i = false :=
    windowDoneNow_of_ne i (by rcases hst with hs | hs <;> rw [hs] <;> decide)
  refine ⟨rfl, ?_, ?_, rfl, ?_, ?_, ?_, ?_⟩ <;>
    simp only [datapath, hwr, hacc, hdone, Bool.false_and, Bool.false_eq_true, ↓reduceIte,
      Ram.step_mem_idle]

/-- A core at rest stays parked until it is armed or disarmed. -/
theorem Rests.step {c : Core W L T} {i : CoreIn W L} (h : c.Rests)
    (ha : i.arm = false) (hd : i.disarm = false) : (c.step i).Rests ∧ c.Parked (c.step i) := by
  have hsame : c.step i = datapath c i := by
    rw [Core.step, control, hd, if_neg (by decide)]
    rcases h with hs | ⟨hs, hall⟩
    · rw [hs]
      dsimp only
      rw [ha, if_neg (by decide)]
    · rw [hs]
      dsimp only
      rw [ha, if_neg (by decide), if_neg hall]
  rw [hsame]
  exact ⟨h, datapath_parked i (h.imp_right And.left)⟩

/-- The buffer, the metadata and the registers of the `DRAIN` header are unchanged. -/
structure Frozen (a b : Core W L T) : Prop where
  wrapped : b.wrapped = a.wrapped
  windowsDone : b.windowsDone = a.windowsDone
  trigIndex : b.trigIndex = a.trigIndex
  tsAtTrig : b.tsAtTrig = a.tsAtTrig
  buf : b.uBuf.mem = a.uBuf.mem
  winMeta : b.uWinMeta.mem = a.uWinMeta.mem

theorem Frozen.trans {a b c : Core W L T} (h : a.Frozen b) (h' : b.Frozen c) : a.Frozen c :=
  ⟨h'.wrapped.trans h.wrapped, h'.windowsDone.trans h.windowsDone, h'.trigIndex.trans h.trigIndex,
    h'.tsAtTrig.trans h.tsAtTrig, h'.buf.trans h.buf, h'.winMeta.trans h.winMeta⟩

theorem Parked.frozen {a b : Core W L T} (h : a.Parked b) : a.Frozen b :=
  ⟨h.wrapped, h.windowsDone, h.trigIndex, h.tsAtTrig, h.buf, h.winMeta⟩

/-- Until an accepted arm a core at rest stays so and holds what the host drains; a disarm
only takes it to `IDLE`. -/
theorem Rests.frozen {c : Core W L T} {i : CoreIn W L} (h : c.Rests)
    (ha : armAccept c i = false) : (c.step i).Rests ∧ c.Frozen (c.step i) := by
  have hst : c.st = .idle ∨ c.st = .done := h.imp_right And.left
  cases hd : i.disarm with
  | false =>
    have harm : i.arm = false := by
      rcases hst with hs | hs <;> simpa [armAccept, hd, hs] using ha
    obtain ⟨hrest, hpark⟩ := h.step harm hd
    exact ⟨hrest, hpark.frozen⟩
  | true =>
    have hstep : c.step i = { datapath c i with st := .idle } := by
      rw [Core.step, control, hd, if_pos rfl]
    have hdata := (datapath_parked i hst).frozen
    rw [hstep]
    exact ⟨Or.inl rfl, ⟨hdata.wrapped, hdata.windowsDone, hdata.trigIndex, hdata.tsAtTrig,
      hdata.buf, hdata.winMeta⟩⟩

/-- Both read registers follow their addresses by one cycle. -/
theorem step_reads (c : Core W L T) (i : CoreIn W L) :
    (c.step i).uBuf.rdData = c.uBuf.mem i.rdAddr ∧
      (c.step i).uWinMeta.rdData = c.uWinMeta.mem i.winRdAddr := by
  unfold step control
  split
  · exact ⟨rfl, rfl⟩
  · split
    · split <;> exact ⟨rfl, rfl⟩
    · split <;> exact ⟨rfl, rfl⟩
    · split <;> exact ⟨rfl, rfl⟩
    · split <;> exact ⟨rfl, rfl⟩
    · split
      · exact ⟨rfl, rfl⟩
      · split <;> exact ⟨rfl, rfl⟩

end FpgaScope.Core
