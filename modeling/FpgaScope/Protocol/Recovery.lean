import FpgaScope.Protocol.Request

/-! A parser that has lost its place. Whatever was received before, a frame that is cut off
takes at most ten of the bytes that follow, and no suffix of a `PING` frame has a sync; so
two of them bring the parser back to the hunt, and a third is heard. -/

namespace FpgaScope.Protocol

open Host

/-- `build_frame(PING)`. -/
def ping : List Byte := frame scopeOpPing []

theorem ping_eq : ping = [0xA5, 0x5C, 0x01, 0x00, 0x00, 0xFB, 0xAC] := by decide +kernel

def pingRequest : Request := .frame scopeOpPing [] (crcOf (body scopeOpPing []))

/-- No request is begun, not even with an `A5`. -/
def Idle (l : List Byte) : Prop := hunt l = none ∧ l.getLast? ≠ some scopeSync0

/-- A `PING` after bytes without a sync is heard. -/
theorem next_ping {l : List Byte} (h : hunt l = none) : next (l ++ ping) = some (pingRequest, []) := by
  have hsync : hunt (l ++ ping) = some (body scopeOpPing [] ++
      [hi (crcOf (body scopeOpPing [])), lo (crcOf (body scopeOpPing []))]) := hunt_sync h _
  rw [next, hsync, Option.bind_some, request_frame (Nat.zero_le _), pingRequest]

/-- What is left after the last request holds none. -/
theorem next_rest (l : List Byte) : next (parse l).2 = none := by
  fun_induction parse l with
  | case1 l h => exact h
  | case2 l r rest h ih => exact ih

/-- No suffix of a `PING` holds a sync or ends in the first byte of one. -/
theorem idle_drop {m : ℕ} (h1 : 1 ≤ m) : Idle (ping.drop m) := by
  have hall : ∀ m < 7, 1 ≤ m → Idle (ping.drop m) := by
    rw [ping_eq]
    unfold Idle
    decide
  rcases Nat.lt_or_ge m 7 with h | h
  · exact hall m h h1
  · rw [List.drop_of_length_le (by rw [ping_eq]; exact h)]
    exact ⟨rfl, by simp⟩

theorem Idle.parse_eq {l : List Byte} (h : Idle l) : parse l = ([], l) :=
  parse_none (by rw [next, h.1, Option.bind_none])

/-- With a `PING` behind it, what is left without a sync is the end of the hunt. -/
theorem idle_ping {l : List Byte} (h : hunt l = none) : Idle (parse (l ++ ping)).2 := by
  rw [parse_some (next_ping h), parse_none rfl]
  exact ⟨rfl, by simp⟩

/-- With some of the first bytes taken, two `PING` frames end in the hunt. -/
theorem idle_taken {m : ℕ} (h1 : 1 ≤ m) : Idle (parse ((ping ++ ping).drop m)).2 := by
  have hlen : ping.length = 7 := by rw [ping_eq]; rfl
  rcases Nat.lt_or_ge m 8 with h | h
  · rw [List.drop_append_of_le_length (by omega)]
    exact idle_ping (idle_drop h1).1
  · rw [List.drop_append, List.drop_of_length_le (by omega), List.nil_append, (idle_drop (by omega)).parse_eq]
    exact idle_drop (by omega)

theorem exists_two {l : List Byte} (h : 2 ≤ l.length) : ∃ ch cl rest, l = ch :: cl :: rest := by
  obtain ⟨ch, t, rfl⟩ := List.exists_cons_of_length_pos (show 0 < l.length by omega)
  rw [List.length_cons] at h
  obtain ⟨cl, rest, rfl⟩ := List.exists_cons_of_length_pos (show 0 < t.length by omega)
  exact ⟨ch, cl, rest, rfl⟩

/-- A request cut off anywhere ends within the two frames. -/
theorem request_pings {got : List Byte} (h : request got = none) :
    ∃ r m, 1 ≤ m ∧ request (got ++ (ping ++ ping)) = some (r, (ping ++ ping).drop m) := by
  rcases got with _ | ⟨cmd, _ | ⟨lh, _ | ⟨ll, tail⟩⟩⟩
  · refine ⟨.oversized, 3, by decide, ?_⟩
    rw [ping_eq]
    rfl
  · refine ⟨.oversized, 2, by decide, ?_⟩
    rw [ping_eq]
    rfl
  · refine ⟨.oversized, 1, by decide, ?_⟩
    have hlen : 8 < (lh ++ (0xA5 : Byte) : BitVec 16).toNat := by
      rw [BitVec.toNat_append]
      exact Nat.lt_of_lt_of_le (by decide) Nat.right_le_or
    rw [ping_eq]
    exact if_pos hlen
  · have hlen : (ping ++ ping).length = 14 := by rw [ping_eq]; rfl
    generalize ping ++ ping = pp at hlen ⊢
    have hle : ¬ 8 < (lh ++ ll : BitVec 16).toNat := fun hlt => by
      rw [request, if_pos hlt] at h
      cases h
    have hcut : tail.length < (lh ++ ll : BitVec 16).toNat + 2 := by
      by_contra hlong
      simp only [request, hle, ↓reduceIte] at h
      have hd : 2 ≤ (tail.drop (lh ++ ll : BitVec 16).toNat).length := by
        rw [List.length_drop]
        omega
      obtain ⟨ch, cl, rest, htail⟩ := exists_two hd
      rw [htail] at h
      cases h
    have hd : 2 ≤ ((tail ++ pp).drop (lh ++ ll : BitVec 16).toNat).length := by
      rw [List.length_drop, List.length_append]
      omega
    obtain ⟨ch, cl, rest, htail⟩ := exists_two hd
    have hrest : rest = pp.drop ((lh ++ ll : BitVec 16).toNat + 2 - tail.length) := by
      have hdrop := congrArg (List.drop 2) htail
      rw [List.drop_drop, List.drop_append, List.drop_of_length_le (by omega), List.nil_append] at hdrop
      exact hdrop.symm
    refine ⟨.frame cmd ((tail ++ pp).take (lh ++ ll : BitVec 16).toNat) (ch ++ cl),
      (lh ++ ll : BitVec 16).toNat + 2 - tail.length, by omega, ?_⟩
    rw [← hrest]
    simp only [List.cons_append, request, hle, ↓reduceIte, htail]

/-- After any bytes and two `PING` frames the parser hunts. -/
theorem idle_pings (l : List Byte) : Idle (parse (l ++ (ping ++ ping))).2 := by
  have hrest := next_rest l
  rw [parse_append]
  generalize (parse l).2 = left at hrest ⊢
  dsimp only
  cases hleft : hunt left with
  | none =>
    rw [← List.append_assoc, parse_append]
    dsimp only
    have hidle := idle_ping hleft
    exact idle_ping hidle.1
  | some got =>
    rw [next, hleft, Option.bind_some] at hrest
    obtain ⟨r, m, h1, hreq⟩ := request_pings hrest
    have hnext : next (left ++ (ping ++ ping)) = some (r, (ping ++ ping).drop m) := by
      rw [next, hunt_append hleft, Option.bind_some, hreq]
    rw [parse_some hnext]
    exact idle_taken h1

end FpgaScope.Protocol
