import Scriptlet.Proofs.NestingThreshold

namespace Scriptlet

open Scriptlet.Parser

namespace Cursor

def equals (c : Cursor) : Nat :=
  (c.current :: c.next :: c.rest).countP (·.kind = .symbol .equal)

theorem equals_advance {c d : Cursor} (h : c.advance = .ok d) :
    d.equals + (if c.current.kind = .symbol .equal then 1 else 0) ≤ c.equals := by
  obtain ⟨current, next, rest, error⟩ := c
  cases rest with
  | cons t ts =>
    obtain rfl := Except.ok.inj h
    simp only [equals, List.countP_cons, decide_eq_true_eq]
    omega
  | nil =>
    cases error with
    | some e => cases h
    | none =>
      obtain rfl : ⟨next, next.endBehind, [], none⟩ = d := Except.ok.inj h
      simp only [equals, List.countP_cons, List.countP_nil, decide_eq_true_eq, kind_endBehind]
      simp

end Cursor

def Surroundings.levels (s : Surroundings) : Nat :=
  (s.maxNesting - s.nesting).toNat

theorem Surroundings.levels_deeper {s : Surroundings} (h : s.nesting < s.maxNesting) :
    s.levels = ({ s with nesting := s.nesting + 1 } : Surroundings).levels + 1 := by
  simp only [levels]
  omega

namespace Parser

/-- `p` does not end at the mark for rules that there is no room for, and its results have `Q`. No equals
sign is read twice. -/
def Confined {α : Type} (p : Parser α) (s : Surroundings) (c : Cursor) (Q : α → Cursor → Prop) : Prop :=
  match p s c with
  | .ok (a, d) => d.equals ≤ c.equals ∧ Q a d
  | .error e => ∀ pos, e ≠ .nesting (s.maxNesting + 1) pos

section

variable {α β : Type} {p : Parser α} {s : Surroundings} {c : Cursor} {Q R : α → Cursor → Prop}

theorem Confined.post (h : Confined p s c Q) (hQ : ∀ a d, d.equals ≤ c.equals → Q a d → R a d) :
    Confined p s c R := by
  unfold Confined at h ⊢
  split at h
  · exact ⟨h.1, hQ _ _ h.1 h.2⟩
  · exact h

theorem Confined.bind {f : α → Parser β} {R : β → Cursor → Prop} (hp : Confined p s c Q)
    (hf : ∀ a d, d.equals ≤ c.equals → Q a d → Confined (f a) s d R) : Confined (p >>= f) s c R := by
  unfold Confined at hp ⊢
  rw [bind_apply]
  cases hpc : p s c with
  | error e => simpa only [hpc] using hp
  | ok r =>
    obtain ⟨a, d⟩ := r
    simp only [hpc] at hp ⊢
    have h := hf a d hp.1 hp.2
    unfold Confined at h
    split at h
    · exact ⟨Nat.le_trans h.1 hp.1, h.2⟩
    · exact h

theorem confined_pure {x : α} (h : Q x c) : Confined (pure x) s c Q :=
  ⟨Nat.le_refl _, h⟩

theorem confined_fault {f : SyntaxFault} {pos : Position} : Confined (fault f pos) s c Q :=
  nofun

theorem confined_exhausted : Confined exhausted s c Q :=
  nofun

theorem confined_current_bind {f : Token → Parser α} :
    Confined (current >>= f) s c Q ↔ Confined (f c.current) s c Q := Iff.rfl

theorem confined_currentKind_bind {f : TokenKind → Parser α} :
    Confined (currentKind >>= f) s c Q ↔ Confined (f c.current.kind) s c Q := Iff.rfl

theorem confined_nextKind_bind {f : TokenKind → Parser α} :
    Confined (nextKind >>= f) s c Q ↔ Confined (f c.next.kind) s c Q := Iff.rfl

theorem confined_read_bind {f : Surroundings → Parser α} :
    Confined (read >>= f) s c Q ↔ Confined (f s) s c Q := Iff.rfl

theorem confined_take :
    Confined take s c fun _ d => c.current.kind = .symbol .equal → d.equals < c.equals := by
  unfold Confined
  rw [take_apply]
  cases hd : c.advance with
  | error e => exact nofun
  | ok d =>
    have hequals := Cursor.equals_advance hd
    refine ⟨Nat.le_of_add_right_le hequals, fun hc => ?_⟩
    rwa [if_pos hc] at hequals

theorem confined_require {kind : TokenKind} {slot : Slot} :
    Confined (require kind slot) s c fun _ _ => True := by
  unfold require
  rw [confined_current_bind]
  split
  · exact confined_take.post fun _ _ _ _ => trivial
  · exact confined_fault

theorem confined_accept {kind : TokenKind} : Confined (accept kind) s c fun _ _ => True := by
  unfold accept
  rw [confined_currentKind_bind]
  split
  · exact confined_take.bind fun _ _ _ _ => confined_pure trivial
  · exact confined_pure trivial

theorem Confined.nested
    (h : s.nesting < s.maxNesting → Confined p { s with nesting := s.nesting + 1 } c Q) :
    Confined (nested p) s c Q := by
  by_cases hs : s.maxNesting ≤ s.nesting
  · unfold Confined
    rw [nested_apply, if_pos hs]
    intro pos he
    have hlimit := (ParseError.nesting.inj he).1
    omega
  · have hp := h (by omega)
    unfold Confined at hp ⊢
    rwa [nested_apply, if_neg hs]

theorem Confined.inFunction (h : Confined p { s with inFunction := true } c Q) :
    Confined (inFunction p) s c Q := h

section

variable {P : Node → Prop} {item : Parser Node}

theorem Confined.manyUntil {stops : List TokenKind}
    (hitem : ∀ d, d.equals ≤ c.equals → Confined item s d fun n _ => P n) (n : Nat) {items : List Node}
    (hitems : ∀ m ∈ items, P m) :
    Confined (manyUntil stops item n items) s c fun ns _ => ∀ m ∈ ns, P m := by
  induction n generalizing items c with
  | zero => exact confined_exhausted
  | succ n ih =>
    unfold Parser.manyUntil
    rw [confined_currentKind_bind]
    split
    · exact confined_pure (by simpa using hitems)
    · apply (hitem c (Nat.le_refl _)).bind
      intro m d hd hm
      exact ih (fun d' hd' => hitem d' (Nat.le_trans hd' hd)) (List.forall_mem_cons.mpr ⟨hm, hitems⟩)

theorem Confined.manyCommas
    (hitem : ∀ d, d.equals ≤ c.equals → Confined item s d fun n _ => P n) (n : Nat) {items : List Node}
    (hitems : ∀ m ∈ items, P m) :
    Confined (manyCommas item n items) s c fun ns _ => ∀ m ∈ ns, P m := by
  induction n generalizing items c with
  | zero => exact confined_exhausted
  | succ n ih =>
    unfold Parser.manyCommas
    apply confined_accept.bind
    intro yes d hd _
    split
    · apply (hitem d hd).bind
      intro m d' hd' hm
      have hle := Nat.le_trans hd' hd
      exact ih (fun e he => hitem e (Nat.le_trans he hle)) (List.forall_mem_cons.mpr ⟨hm, hitems⟩)
    · exact confined_pure (by simpa using hitems)

end

end

end Parser

end Scriptlet
