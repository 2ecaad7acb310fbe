import FpgaScope.Host.Frame

/-! The request grammar, on the accepted bytes alone: hunt for the sync bytes, then one
frame with at most eight payload bytes. A length above that ends the request at once,
and its payload is hunted through like anything else. -/

namespace FpgaScope.Protocol

open Host

inductive Request where
  | oversized
  | frame (cmd : Byte) (payload : List Byte) (crc : BitVec 16)

/-- What follows the first sync. -/
def hunt : List Byte → Option (List Byte)
  | a :: b :: rest => if a = scopeSync0 ∧ b = scopeSync1 then some rest else hunt (b :: rest)
  | _ => none

/-- The request after a sync, and what follows it. -/
def request : List Byte → Option (Request × List Byte)
  | cmd :: h :: l :: rest =>
    let len := (h ++ l).toNat
    if 8 < len then some (.oversized, rest)
    else match rest.drop len with
      | ch :: cl :: rest' => some (.frame cmd (rest.take len) (ch ++ cl), rest')
      | _ => none
  | _ => none

/-- The first request in a byte string, and what follows it. -/
def next (l : List Byte) : Option (Request × List Byte) := (hunt l).bind request

theorem hunt_length {l got : List Byte} (h : hunt l = some got) : got.length < l.length := by
  fun_induction hunt l with
  | case1 a b rest hs =>
    obtain rfl := Option.some.inj h
    simp only [List.length_cons]
    omega
  | case2 a b rest hs ih =>
    have := ih h
    simp only [List.length_cons] at this ⊢
    omega
  | case3 => cases h

/-- A request is cut off by its length, or framed by its length and the two CRC bytes. -/
theorem request_cases {got rest : List Byte} {r : Request} (h : request got = some (r, rest)) :
    ∃ cmd lh ll tail, got = cmd :: lh :: ll :: tail ∧
      ((8 < (lh ++ ll).toNat ∧ r = .oversized ∧ rest = tail) ∨
        (¬ 8 < (lh ++ ll).toNat ∧ ∃ ch cl, tail.drop (lh ++ ll).toNat = ch :: cl :: rest ∧
          r = .frame cmd (tail.take (lh ++ ll).toNat) (ch ++ cl))) := by
  unfold request at h
  split at h
  · rename_i cmd lh ll tail
    refine ⟨cmd, lh, ll, tail, rfl, ?_⟩
    dsimp only at h
    split at h
    · rename_i hlen
      cases h
      exact Or.inl ⟨hlen, rfl, rfl⟩
    · rename_i hlen
      split at h
      · rename_i ch cl rest' htail
        cases h
        exact Or.inr ⟨hlen, ch, cl, htail, rfl⟩
      · cases h
  · cases h

theorem request_length {got rest : List Byte} {r : Request} (h : request got = some (r, rest)) :
    rest.length < got.length := by
  obtain ⟨cmd, lh, ll, tail, rfl, ⟨-, -, rfl⟩ | ⟨-, ch, cl, htail, -⟩⟩ := request_cases h
  · simp only [List.length_cons]
    omega
  · have hl := congrArg List.length htail
    simp only [List.length_drop, List.length_cons] at hl ⊢
    omega

theorem next_length {l rest : List Byte} {r : Request} (h : next l = some (r, rest)) :
    rest.length < l.length := by
  obtain ⟨got, hgot, hreq⟩ := Option.bind_eq_some_iff.mp h
  exact (request_length hreq).trans (hunt_length hgot)

/-- The requests in a byte string, and the bytes after the last one. -/
def parse (l : List Byte) : List Request × List Byte :=
  match _h : next l with
  | none => ([], l)
  | some (r, rest) => (r :: (parse rest).1, (parse rest).2)
termination_by l.length
decreasing_by all_goals exact next_length _h

theorem parse_none {l : List Byte} (h : next l = none) : parse l = ([], l) := by
  rw [parse]
  split
  · rfl
  · rename_i h'
    rw [h] at h'
    cases h'

theorem parse_some {l rest : List Byte} {r : Request} (h : next l = some (r, rest)) :
    parse l = (r :: (parse rest).1, (parse rest).2) := by
  rw [parse]
  split
  · rename_i h'
    rw [h] at h'
    cases h'
  · rename_i h'
    rw [h] at h'
    obtain ⟨rfl, rfl⟩ := Prod.mk.inj (Option.some.inj h')
    rfl

/-- A frame of the host codec from its sync on. -/
theorem request_frame {cmd : Byte} {payload : List Byte} (h : payload.length ≤ 8) :
    request (body cmd payload ++ [hi (crcOf (body cmd payload)), lo (crcOf (body cmd payload))]) =
      some (.frame cmd payload (crcOf (body cmd payload)), []) := by
  have hlen : (BitVec.ofNat 16 payload.length).toNat = payload.length := by
    rw [BitVec.toNat_ofNat]
    exact Nat.mod_eq_of_lt (by omega)
  simp only [body, List.cons_append, List.nil_append, request, hi_append_lo, hlen,
    show ¬ 8 < payload.length by omega, ↓reduceIte]
  rw [List.drop_left, List.take_left]
  dsimp only
  rw [hi_append_lo]

/-- A frame of the host codec is one request. -/
theorem parse_frame {cmd : Byte} {payload : List Byte} (h : payload.length ≤ 8) :
    parse (frame cmd payload) = ([.frame cmd payload (crcOf (body cmd payload))], []) := by
  have hnext : next (frame cmd payload) =
      some (.frame cmd payload (crcOf (body cmd payload)), []) := request_frame h
  rw [parse_some hnext, parse_none rfl]

/-! ### More bytes -/

theorem hunt_append {l got : List Byte} (h : hunt l = some got) (m : List Byte) :
    hunt (l ++ m) = some (got ++ m) := by
  fun_induction hunt l with
  | case1 a b rest hs =>
    obtain rfl := Option.some.inj h
    rw [List.cons_append, List.cons_append, hunt, if_pos hs]
  | case2 a b rest hs ih =>
    rw [List.cons_append, List.cons_append, hunt, if_neg hs, ← List.cons_append, ih h]
  | case3 => cases h

theorem request_append {got rest : List Byte} {r : Request} (h : request got = some (r, rest))
    (m : List Byte) : request (got ++ m) = some (r, rest ++ m) := by
  obtain ⟨cmd, lh, ll, tail, rfl, ⟨hlen, rfl, rfl⟩ | ⟨hlen, ch, cl, htail, rfl⟩⟩ := request_cases h
  · rw [List.cons_append, List.cons_append, List.cons_append, request, if_pos hlen]
  · have hle : (lh ++ ll).toNat + 2 ≤ tail.length := by
      have hl := congrArg List.length htail
      simp only [List.length_drop, List.length_cons] at hl
      omega
    have hdrop : (tail ++ m).drop (lh ++ ll).toNat = ch :: cl :: (rest ++ m) := by
      rw [List.drop_append_of_le_length (by omega), htail]
      rfl
    simp only [List.cons_append, request, hlen, ↓reduceIte, hdrop]
    rw [List.take_append_of_le_length (by omega)]

theorem next_append {l rest : List Byte} {r : Request} (h : next l = some (r, rest))
    (m : List Byte) : next (l ++ m) = some (r, rest ++ m) := by
  obtain ⟨got, hgot, hreq⟩ := Option.bind_eq_some_iff.mp h
  rw [next, hunt_append hgot, Option.bind_some, request_append hreq]

/-- Bytes that come later are parsed together with the bytes left over. -/
theorem parse_append (l m : List Byte) : parse (l ++ m) =
    ((parse l).1 ++ (parse ((parse l).2 ++ m)).1, (parse ((parse l).2 ++ m)).2) := by
  fun_induction parse l with
  | case1 l h => rw [List.nil_append]
  | case2 l r rest h ih =>
    rw [parse_some (next_append h m), ih, List.cons_append]

/-- A sync after bytes without one is found. -/
theorem hunt_sync {l : List Byte} (h : hunt l = none) (rest : List Byte) :
    hunt (l ++ scopeSync0 :: scopeSync1 :: rest) = some rest := by
  fun_induction hunt l with
  | case1 => cases h
  | case2 a b tail hs ih =>
    rw [List.cons_append, List.cons_append, hunt, if_neg hs, ← List.cons_append, ih h]
  | case3 l hl =>
    match l with
    | [] => rfl
    | [a] =>
      have hs : ¬ (a = scopeSync0 ∧ scopeSync0 = scopeSync1) := fun h => absurd h.2 (by decide)
      rw [List.cons_append, List.nil_append, hunt, if_neg hs]
      rfl
    | a :: b :: tail => exact absurd rfl (hl a b tail)

/-! ### One more byte -/

/-- Without a sync so far, only `5C` after `A5` makes one. -/
theorem hunt_snoc {l : List Byte} (h : hunt l = none) (b : Byte) :
    hunt (l ++ [b]) = if l.getLast? = some scopeSync0 ∧ b = scopeSync1 then some [] else none := by
  fun_induction hunt l with
  | case1 => cases h
  | case2 a a' rest hs ih =>
    rw [List.cons_append, List.cons_append, hunt, if_neg hs, ← List.cons_append, ih h,
      List.getLast?_cons_cons]
  | case3 l hl =>
    cases l with
    | nil => simp [hunt]
    | cons a rest =>
      cases rest with
      | nil =>
        by_cases hs : a = scopeSync0 ∧ b = scopeSync1
        · simp [hunt, hs]
        · simp [hunt, hs]
      | cons a' rest => exact absurd rfl (hl a a' rest)

end FpgaScope.Protocol
