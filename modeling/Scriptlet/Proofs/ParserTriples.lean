import Scriptlet.Proofs.TokenPaths

namespace Scriptlet.Parser

open Cursor

/-- How far nesting, rules inside each other, and loops may go before any token is taken, and
the tokens taken already that a fault may point at. -/
structure Allowance where
  nesting : Nat
  room : Int
  turns : Int
  seen : List Token

namespace Allowance

def after (b : Allowance) (us : List Token) : Allowance :=
  ⟨b.nesting + 2 * us.length, b.room - 5 * us.length, b.turns - us.length, b.seen ++ us⟩

structure Covers (b a : Allowance) : Prop where
  nesting : a.nesting ≤ b.nesting
  room : b.room ≤ a.room
  turns : b.turns ≤ a.turns
  seen : a.seen ⊆ b.seen

theorem Covers.refl (b : Allowance) : b.Covers b :=
  ⟨Nat.le_refl _, Int.le_refl _, Int.le_refl _, List.Subset.refl _⟩

theorem Covers.after {a b : Allowance} (h : b.Covers a) (us : List Token) :
    (b.after us).Covers a := by
  obtain ⟨hn, hr, ht, hs⟩ := h
  refine ⟨?_, ?_, ?_, fun t h => List.mem_append_left us (hs h)⟩
  all_goals
    simp only [Allowance.after]
    omega

end Allowance

def Reason (maxNesting : Int) (b : Allowance) (us : List Token) (c : Cursor) : ParseError → Prop
  | .scan e => c.advance = .error e
  | .fault _ pos => ∃ t ∈ b.seen ++ us ++ [c.current], pos = t.pos
  | .nesting limit pos =>
    limit = maxNesting ∧ pos = c.current.pos ∧ maxNesting < b.nesting + 2 * us.length
  | .exhausted pos =>
    pos = c.current.pos ∧ (b.room < 5 * us.length ∨ b.turns ≤ us.length)

theorem Reason.prepend {N : Int} {b : Allowance} {us vs : List Token} {c : Cursor} {e : ParseError}
    (h : Reason N (b.after us) vs c e) : Reason N b (us ++ vs) c e := by
  cases e with
  | scan e => exact h
  | fault f pos =>
    obtain ⟨t, ht, hpos⟩ := h
    refine ⟨t, ?_, hpos⟩
    simpa only [Allowance.after, List.append_assoc] using ht
  | nesting limit pos =>
    obtain ⟨hl, hpos, h⟩ := h
    refine ⟨hl, hpos, ?_⟩
    simp only [Allowance.after, List.length_append] at h ⊢
    omega
  | exhausted pos =>
    obtain ⟨hpos, h⟩ := h
    refine ⟨hpos, ?_⟩
    simp only [Allowance.after, List.length_append] at h ⊢
    omega

theorem Reason.mono {N : Int} {a b : Allowance} {us : List Token} {c : Cursor} {e : ParseError}
    (h : Reason N a us c e) (hab : b.Covers a) : Reason N b us c e := by
  obtain ⟨hn, hr, ht, hseen⟩ := hab
  cases e with
  | scan e => exact h
  | fault f pos =>
    obtain ⟨t, ht, hpos⟩ := h
    refine ⟨t, ?_, hpos⟩
    simp only [List.mem_append] at ht ⊢
    exact ht.imp_left (Or.imp_left fun h => hseen h)
  | nesting limit pos => exact ⟨h.1, h.2.1, by have := h.2.2; omega⟩
  | exhausted pos => exact ⟨h.1, by have := h.2; omega⟩

def Ensures {α : Type} (p : Parser α) (s : Surroundings) (c : Cursor) (b : Allowance)
    (Q : α → List Token → Cursor → Prop) : Prop :=
  match p s c with
  | .ok (a, d) => ∃ us, c.Passes us d ∧ Q a us d
  | .error e => ∃ us d, c.Passes us d ∧ Reason s.maxNesting b us d e

section

variable {α β : Type} {p : Parser α} {s : Surroundings} {c : Cursor} {a b : Allowance}
  {Q R : α → List Token → Cursor → Prop}

theorem bind_apply (p : Parser α) (f : α → Parser β) (s : Surroundings) (c : Cursor) :
    (p >>= f) s c =
      match p s c with
      | .ok (a, d) => f a s d
      | .error e => .error e := by
  change Except.bind (p s c) _ = _
  cases p s c with
  | error e => rfl
  | ok r => rfl

theorem Ensures.mono (h : Ensures p s c a Q) (hab : b.Covers a)
    (hQ : ∀ a us d, c.Passes us d → Q a us d → R a us d) : Ensures p s c b R := by
  unfold Ensures at h ⊢
  split at h
  · obtain ⟨us, hp, hq⟩ := h
    exact ⟨us, hp, hQ _ us _ hp hq⟩
  · obtain ⟨us, d, hp, hr⟩ := h
    exact ⟨us, d, hp, hr.mono hab⟩

theorem Ensures.post (h : Ensures p s c b Q)
    (hQ : ∀ a us d, c.Passes us d → Q a us d → R a us d) : Ensures p s c b R :=
  h.mono (.refl b) hQ

theorem Ensures.bind {f : α → Parser β} {R : β → List Token → Cursor → Prop}
    (hp : Ensures p s c b Q)
    (hf : ∀ a us d, c.Passes us d → Q a us d →
      Ensures (f a) s d (b.after us) (fun r vs d => R r (us ++ vs) d)) :
    Ensures (p >>= f) s c b R := by
  unfold Ensures at hp ⊢
  rw [bind_apply]
  cases hpc : p s c with
  | error e => simpa [hpc] using hp
  | ok r =>
    obtain ⟨a, d⟩ := r
    simp only [hpc] at hp ⊢
    obtain ⟨us, hus, hq⟩ := hp
    have h := hf a us d hus hq
    unfold Ensures at h
    split at h
    · obtain ⟨vs, hvs, hr⟩ := h
      exact ⟨us ++ vs, hus.append hvs, hr⟩
    · obtain ⟨vs, d', hvs, hr⟩ := h
      exact ⟨us ++ vs, d', hus.append hvs, hr.prepend⟩

theorem ensures_pure {x : α} (h : Q x [] c) : Ensures (pure x) s c b Q :=
  ⟨[], rfl, h⟩

theorem ensures_current_bind {f : Token → Parser α} :
    Ensures (current >>= f) s c b Q ↔ Ensures (f c.current) s c b Q := Iff.rfl

theorem ensures_currentKind_bind {f : TokenKind → Parser α} :
    Ensures (currentKind >>= f) s c b Q ↔ Ensures (f c.current.kind) s c b Q := Iff.rfl

theorem ensures_nextKind_bind {f : TokenKind → Parser α} :
    Ensures (nextKind >>= f) s c b Q ↔ Ensures (f c.next.kind) s c b Q := Iff.rfl

theorem ensures_read_bind {f : Surroundings → Parser α} :
    Ensures (read >>= f) s c b Q ↔ Ensures (f s) s c b Q := Iff.rfl

theorem ensures_fault {f : SyntaxFault} {pos : Position}
    (h : ∃ t ∈ b.seen ++ [c.current], pos = t.pos) : Ensures (fault f pos) s c b Q := by
  obtain ⟨t, ht, hpos⟩ := h
  refine ⟨[], c, rfl, t, ?_, hpos⟩
  rwa [List.append_nil]

theorem ensures_exhausted (h : b.room < 0 ∨ b.turns ≤ 0) : Ensures exhausted s c b Q :=
  ⟨[], c, rfl, rfl, h⟩

theorem take_apply (s : Surroundings) (c : Cursor) :
    take s c =
      match c.advance with
      | .ok d => .ok (c.current, d)
      | .error e => .error (.scan e) := by
  unfold take
  rw [bind_apply]
  change (match c.advance with | .ok _ => _ | .error _ => _ : Parser Token) s c = _
  cases c.advance <;> rfl

theorem ensures_take (hc : c.current.kind ≠ .endOfInput) :
    Ensures take s c b fun t us _ => t = c.current ∧ us = [t] := by
  unfold Ensures
  rw [take_apply]
  cases hd : c.advance with
  | error e => exact ⟨[], c, rfl, hd⟩
  | ok d => exact ⟨[c.current], ⟨rfl, hc, d, hd, rfl⟩, rfl, rfl⟩

theorem ensures_require {kind : TokenKind} {slot : Slot} (hk : kind ≠ .endOfInput) :
    Ensures (require kind slot) s c b fun t us _ => t.kind = kind ∧ us = [t] := by
  unfold require
  rw [ensures_current_bind]
  split
  · rename_i h
    apply (ensures_take (by rwa [h])).post
    rintro t us d - ⟨rfl, rfl⟩
    exact ⟨h, rfl⟩
  · exact ensures_fault ⟨c.current, by simp, rfl⟩

theorem ensures_accept {kind : TokenKind} (hk : kind ≠ .endOfInput) :
    Ensures (accept kind) s c b fun yes us d =>
      if yes then ∃ t, t.kind = kind ∧ us = [t] else us = [] ∧ d.current.kind ≠ kind := by
  unfold accept
  rw [ensures_currentKind_bind]
  split
  · rename_i h
    apply (ensures_take (by rwa [h])).bind
    rintro t us d - ⟨rfl, rfl⟩
    exact ensures_pure ⟨c.current, h, rfl⟩
  · rename_i h
    exact ensures_pure ⟨rfl, h⟩

theorem nested_apply (p : Parser α) (s : Surroundings) (c : Cursor) :
    nested p s c =
      if s.maxNesting ≤ s.nesting then .error (.nesting s.maxNesting c.current.pos)
      else p { s with nesting := s.nesting + 1 } c := by
  unfold nested
  rw [bind_apply]
  change (if s.maxNesting ≤ s.nesting then _ else _ : Parser α) s c = _
  split <;> rfl

theorem Ensures.nested (hb : s.nesting + 1 ≤ b.nesting)
    (h : Ensures p { s with nesting := s.nesting + 1 } c b Q) : Ensures (nested p) s c b Q := by
  by_cases hs : s.maxNesting ≤ s.nesting
  · unfold Ensures
    rw [nested_apply, if_pos hs]
    refine ⟨[], c, rfl, rfl, rfl, ?_⟩
    simp only [List.length_nil]
    omega
  · unfold Ensures at h ⊢
    rw [nested_apply, if_neg hs]
    exact h

theorem Ensures.inFunction (h : Ensures p { s with inFunction := true } c b Q) :
    Ensures (inFunction p) s c b Q := h

end

end Scriptlet.Parser
