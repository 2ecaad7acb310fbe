import FpgaScope.Engine.Conform
import FpgaScope.Host.Crc

/-! A damaged request at the frame engine. Its length is intact, so the engine takes it as
one request; its CRC does not match, so the request is refused and nothing is done. -/

namespace FpgaScope

open Protocol Host Clocked

namespace Protocol

/-- A damaged request is one request with a CRC that does not match. -/
theorem next_damaged {left : List Byte} (hleft : hunt left = none) {cmd : ℕ} {payload bytes e : List Byte}
    (hb : buildFrame cmd payload = .ok bytes) (h8 : payload.length ≤ 8) (h : FlipPattern payload.length e) :
    ∃ cmd' payload' crc, next (left ++ damaged bytes e) = some (.frame cmd' payload' crc, []) ∧
      crc.toNat ≠ crc16Ccitt (body cmd' payload') 0xFFFF := by
  obtain ⟨-, rfl⟩ := buildFrame_ok hb
  obtain ⟨cmd', payload', ch, cl, hpay, hbytes, hcrc⟩ := h.mismatch (BitVec.ofNat 8 cmd)
  have hplen : (hi (BitVec.ofNat 16 payload.length) ++ lo (BitVec.ofNat 16 payload.length) :
      BitVec 16).toNat = payload'.length := by
    rw [hi_append_lo, BitVec.toNat_ofNat, Nat.mod_eq_of_lt (by omega), hpay]
  refine ⟨cmd', payload', ch ++ cl, ?_, fun hc => hcrc (BitVec.eq_of_toNat_eq ?_)⟩
  · rw [hbytes, next, hunt_sync hleft, Option.bind_some, request]
    simp only [hplen, show ¬ 8 < payload'.length by omega, ↓reduceIte, List.drop_left, List.take_left]
  · rw [hc, crc16Ccitt_eq]

variable (p : Params)

/-- The answers when a refused request is under way or complete. -/
theorem answer_refused (pack : (ℕ → BitVec 32) → List Byte) (rs : List Request)
    {rs' : List Request} {r : Request} {code : Byte}
    (hr : ∀ reply, respond p pack reply r = nak code) (hrs : rs' <+: [r]) (reply : ℕ → BitVec 32) :
    (answer p pack (rs ++ rs') reply).ops = (answer p pack rs reply).ops ∧
      (answer p pack (rs ++ rs') reply).sent <+:
        (answer p pack rs reply).sent ++ frameBytes scopeOpNak [code] ∧
      (rs' = [r] → (answer p pack (rs ++ rs') reply).sent =
        (answer p pack rs reply).sent ++ frameBytes scopeOpNak [code]) := by
  rcases rs' with _ | ⟨r', tail⟩
  · rw [List.append_nil]
    exact ⟨rfl, List.prefix_append _ _, nofun⟩
  · obtain ⟨rfl, htail⟩ := List.cons_prefix_cons.mp hrs
    obtain rfl := List.prefix_nil.mp htail
    have hsnoc := answer_snoc p pack rs r' reply
    simp only [hr] at hsnoc
    rw [hsnoc]
    exact ⟨List.append_nil _, List.prefix_rfl, fun _ => rfl⟩

end Protocol

namespace Drain

variable {p : Params}

/-- In the hunt or right after an `A5` no request is begun. -/
theorem Serves.hunting {ρ : ℕ → BitVec 32} {d : Drain p} {H : History} (h : Serves ρ d H)
    (hst : d.st = .hunt ∨ d.st = .sync1) : Protocol.hunt (parse H.received).2 = none := by
  cases h with
  | receiving h =>
    cases h with
    | hunt _ hl | sync1 _ hl => exact hl
    | synced _ hs =>
      cases hs with
      | rcmd h | rlenh h | rlenl h | rpay h | rcrch h | rcrcl h => rw [h] at hst; cases hst <;> contradiction
  | answering hrx =>
    rw [rxReady] at hrx
    rcases hst with h | h <;> rw [h] at hrx <;> cases hrx

/-- A run that refuses the request `req` from cycle `n` on: while its bytes are accepted and
after, no operation is issued and nothing but `NAK(code)` is sent; with all of it accepted
and the engine receiving again, that is sent; and the engine gets there if the other sides
do not wait forever. -/
structure Refuses (d₀ : Drain p) (inp : ℕ → DrainIn) (n : ℕ) (req : List Byte) (code : Byte) : Prop where
  operations : ∀ k, n ≤ k → (history d₀ inp k).received <+: (history d₀ inp n).received ++ req →
    (history d₀ inp k).operations = (history d₀ inp n).operations
  emitted : ∀ k, n ≤ k → (history d₀ inp k).received <+: (history d₀ inp n).received ++ req →
    (history d₀ inp k).emitted <+: (history d₀ inp n).emitted ++ frameBytes scopeOpNak [code]
  answered : ∀ k, n ≤ k → (history d₀ inp k).received = (history d₀ inp n).received ++ req →
    (run d₀ inp k).rxReady = true →
      (history d₀ inp k).emitted = (history d₀ inp n).emitted ++ frameBytes scopeOpNak [code]
  settles : Fair d₀ inp → ∀ k, ∃ m, k ≤ m ∧ (run d₀ inp m).rxReady = true ∧
    (history d₀ inp m).received = (history d₀ inp k).received

theorem refuses_damaged (d₀ : Drain p) (inp : ℕ → DrainIn) {cmd : ℕ} {payload bytes e : List Byte}
    (hb : buildFrame cmd payload = .ok bytes) (h8 : payload.length ≤ 8)
    (h : FlipPattern payload.length e) (n : ℕ)
    (hst : (run d₀ inp n).st = .hunt ∨ (run d₀ inp n).st = .sync1) :
    Refuses d₀ inp n (damaged bytes e) scopeNakBadCrc := by
  have ex := execution d₀ inp
  obtain ⟨ρ, hρ⟩ := ex.exists_serves fun _ => .start rfl
  have hserves : ∀ m, Serves ρ (run d₀ inp m) (history d₀ inp m) := fun m => (hρ m).2
  have hhunt := (hserves n).hunting hst
  have hrx : (run d₀ inp n).rxReady = true := by
    rcases hst with hs | hs <;> rw [rxReady, hs]
  obtain ⟨hsent, hops⟩ := (hserves n).settled hrx
  obtain ⟨cmd', payload', crc, hnext, hcrc⟩ := next_damaged hhunt hb h8 h
  have hrefuse : ∀ reply, respond p (laneBytes p) reply (.frame cmd' payload' crc) =
      Protocol.nak scopeNakBadCrc :=
    fun reply => by
      unfold respond
      exact if_pos hcrc
  have hone : parse ((parse (history d₀ inp n).received).2 ++ damaged bytes e) =
      ([.frame cmd' payload' crc], []) := by rw [parse_some hnext, parse_none rfl]
  -- what is owed while the bytes since cycle `n` are `t`
  have howed : ∀ k, n ≤ k → ∀ t, (history d₀ inp n).received ++ t = (history d₀ inp k).received →
      t <+: damaged bytes e →
      ((history d₀ inp k).due p ρ).ops = ((history d₀ inp n).due p ρ).ops ∧
        ((history d₀ inp k).due p ρ).sent <+:
          ((history d₀ inp n).due p ρ).sent ++ frameBytes scopeOpNak [scopeNakBadCrc] ∧
        (t = damaged bytes e → ((history d₀ inp k).due p ρ).sent =
          ((history d₀ inp n).due p ρ).sent ++ frameBytes scopeOpNak [scopeNakBadCrc]) := by
    rintro k hk t ht ⟨t', ht'⟩
    have hprefix : (parse ((parse (history d₀ inp n).received).2 ++ t)).1 <+:
        [.frame cmd' payload' crc] := by
      have hone' := hone
      rw [← ht', ← List.append_assoc, parse_append] at hone'
      exact ⟨_, congrArg Prod.fst hone'⟩
    obtain ⟨hops', hsent', hfull⟩ := answer_refused p (laneBytes p)
      (parse (history d₀ inp n).received).1 hrefuse hprefix ρ
    have hparse : (parse (history d₀ inp k).received).1 = (parse (history d₀ inp n).received).1 ++
        (parse ((parse (history d₀ inp n).received).2 ++ t)).1 := by rw [← ht, parse_append]
    rw [← hparse] at hops' hsent' hfull
    exact ⟨hops', hsent', fun hall => hfull (by rw [hall, hone])⟩
  have hpart : ∀ k, n ≤ k →
      (history d₀ inp k).received <+: (history d₀ inp n).received ++ damaged bytes e →
      ∃ t, (history d₀ inp n).received ++ t = (history d₀ inp k).received ∧ t <+: damaged bytes e := by
    intro k hk hrec
    obtain ⟨t, ht⟩ := ex.received_mono n k hk
    exact ⟨t, ht, (List.prefix_append_right_inj _).mp (ht ▸ hrec)⟩
  refine ⟨fun k hk hrec => ?_, fun k hk hrec => ?_, fun k hk hrec hrxk => ?_, fun hfair k => ?_⟩
  · obtain ⟨t, ht, hpre⟩ := hpart k hk hrec
    refine ((ex.operations_mono n k hk).eq_of_length_le ?_).symm
    rw [hops, ← (howed k hk t ht hpre).1]
    exact (Serves.operations_prefix (hserves k)).length_le
  · obtain ⟨t, ht, hpre⟩ := hpart k hk hrec
    rw [hsent]
    exact (Serves.emitted_prefix (hserves k)).trans (howed k hk t ht hpre).2.1
  · rw [((hserves k).settled hrxk).1, hsent]
    exact (howed k hk _ hrec.symm List.prefix_rfl).2.2 rfl
  · exact hfair.receives k

/-- The CRC protects frames. Flips in the command, payload and CRC bytes of a frame that lie
among sixteen consecutive bits or are odd in number make `parse_frame` raise, whatever
follows; and a request damaged so is refused with `NAK(BAD_CRC)` by an engine that is
between requests. -/
theorem crc_protects (cmd : ℕ) (payload bytes e : List Byte) (hb : buildFrame cmd payload = .ok bytes)
    (h : FlipPattern payload.length e) :
    (∀ rest, parseFrame (damaged bytes e ++ rest) 0 = .error .crc) ∧
    (payload.length ≤ 8 → ∀ (p : Params) (d₀ : Drain p) (inp : ℕ → DrainIn) (n : ℕ),
      (run d₀ inp n).st = .hunt ∨ (run d₀ inp n).st = .sync1 →
        Refuses d₀ inp n (damaged bytes e) scopeNakBadCrc) :=
  ⟨parseFrame_damaged hb h, fun h8 _ d₀ inp n hst => refuses_damaged d₀ inp hb h8 h n hst⟩

/-- The CRC of a `PING` with its last three bits flipped. -/
def flippedCrc : List Byte := [0, 0, 0, 0, 0, 0, 7]

theorem flippedCrc_pattern : FlipPattern 0 flippedCrc :=
  ⟨rfl, by decide, ⟨6, by decide⟩, Or.inr ⟨1, by decide⟩⟩

theorem flippedCrc_caught :
    parseFrame (damaged (frame scopeOpPing []) flippedCrc) 0 = .error .crc ∧
      Refuses (blank widest)
        (hostIn (blank widest) (damaged (frame scopeOpPing []) flippedCrc) (topBit false)) 0
        (damaged (frame scopeOpPing []) flippedCrc) scopeNakBadCrc := by
  have hb : buildFrame scopeOpPing.toNat [] = .ok (frame scopeOpPing []) := buildFrame_eq (Nat.zero_le _)
  obtain ⟨hparse, hrefuse⟩ := crc_protects _ _ _ _ hb flippedCrc_pattern
  refine ⟨?_, hrefuse (Nat.zero_le _) _ _ _ 0 (Or.inl rfl)⟩
  have h := hparse []
  rwa [List.append_nil] at h

end Drain

end FpgaScope
