import Scriptlet.Proofs.Pairing
import Scriptlet.Proofs.ParserTriples

/-!
Two parsers side by side. The first may reach the end of its input where the second one goes on, and
the two may be bound by different limits; as long as the tokens in front of them are alike, they do
alike.
-/

namespace Scriptlet

structure Token.Like (ρ : Pairing) (t t' : Token) : Prop where
  kind : t.kind = t'.kind
  text : t.text = t'.text
  value : t.value = t'.value
  pos : ρ.position (some t.pos) (some t'.pos)

structure Token.BothEnd (ρ : Pairing) (t t' : Token) : Prop where
  left : t.kind = .endOfInput
  right : t'.kind = .endOfInput
  pos : ρ.position (some t.pos) (some t'.pos)

abbrev Token.Corresponds (ρ : Pairing) (t t' : Token) : Prop :=
  t.Like ρ t' ∨ t.BothEnd ρ t'

inductive SyntaxFault.Like (R : Token → Token → Prop) : SyntaxFault → SyntaxFault → Prop
  | missing {t t' : Token} (kind : TokenKind) (slot : Slot) (ht : R t t') :
      SyntaxFault.Like R (.missing kind slot t) (.missing kind slot t')
  | noExpression {t t' : Token} (ht : R t t') :
      SyntaxFault.Like R (.noExpression t) (.noExpression t')
  | returnOutside : SyntaxFault.Like R .returnOutside .returnOutside
  | duplicateParameter (x : String) :
      SyntaxFault.Like R (.duplicateParameter x) (.duplicateParameter x)
  | invalidTarget : SyntaxFault.Like R .invalidTarget .invalidTarget

theorem SyntaxFault.Like.mono {R S : Token → Token → Prop} (hRS : ∀ {t t'}, R t t' → S t t')
    {f f' : SyntaxFault} (h : f.Like R f') : f.Like S f' := by
  cases h with
  | missing kind slot ht => exact .missing kind slot (hRS ht)
  | noExpression ht => exact .noExpression (hRS ht)
  | returnOutside => exact .returnOutside
  | duplicateParameter x => exact .duplicateParameter x
  | invalidTarget => exact .invalidTarget

theorem SyntaxFault.Like.fault_eq {f f' : SyntaxFault} (h : f.Like Eq f') {p p' : Position}
    (hp : some p = some p') : ParseError.fault f p = .fault f' p' := by
  obtain rfl := Option.some.inj hp
  cases h with
  | missing kind slot ht => rw [ht]
  | noExpression ht => rw [ht]
  | _ => rfl

theorem ParseError.exhausted_eq {p p' : Position} (hp : some p = some p') :
    exhausted p = exhausted p' := by
  rw [Option.some.inj hp]

theorem Token.corresponds_of_eq {t t' : Token} (h : t = t') : t.Corresponds .identity t' :=
  .inl (h ▸ ⟨rfl, rfl, rfl, rfl⟩)

namespace Token.Corresponds

variable {ρ : Pairing} {t t' : Token}

theorem kind (h : t.Corresponds ρ t') : t.kind = t'.kind :=
  h.elim Like.kind fun h => h.left.trans h.right.symm

theorem pos (h : t.Corresponds ρ t') : ρ.position (some t.pos) (some t'.pos) :=
  h.elim Like.pos BothEnd.pos

theorem like (h : t.Corresponds ρ t') (hk : t.kind ≠ .endOfInput) : t.Like ρ t' :=
  h.resolve_right fun h => hk h.left

end Token.Corresponds

structure Ended (lost : ParseError → Prop) (c c' : Cursor) : Prop where
  left : c.current.kind = .endOfInput
  right : c'.current.kind ≠ .keyword .elseWord
  lost (e : ParseError) : lost e

theorem Ended.of_false {lost : ParseError → Prop} {c c' : Cursor} (h : False) : Ended lost c c' :=
  h.elim

/-- How two parsers stand to each other. While they are `near` they see tokens that are alike. They
are `apart` where the first one has come to the end of its input and the second one goes on. Errors
are either the `same`, or the first one is `lost`, and it does not matter what the second one does. -/
structure Reading where
  pairing : Pairing
  token : Token → Token → Prop
  near : Cursor → Cursor → Prop
  apart : Cursor → Cursor → Prop
  same : ParseError → ParseError → Prop
  lost : ParseError → Prop
  token_corresponds {t t' : Token} : token t t' → t.Corresponds pairing t'
  near_current {c c' : Cursor} : near c c' → token c.current c'.current
  near_next {c c' : Cursor} : near c c' → c.current.kind = .keyword .funWord →
    (c.next.kind = .identifier ↔ c'.next.kind = .identifier)
  near_advance {c c' : Cursor} : near c c' → c.current.kind ≠ .endOfInput →
    (∃ d d', c.advance = .ok d ∧ c'.advance = .ok d' ∧
      (near d d' ∨ c.current.kind = .symbol .semicolon ∧ apart d d')) ∨
    ∃ e, c.advance = .error e ∧
      (lost (.scan e) ∨ ∃ e', c'.advance = .error e' ∧ same (.scan e) (.scan e'))
  apart_ended {c c' : Cursor} : apart c c' → Ended lost c c'
  same_fault {f f' : SyntaxFault} {p p' : Position} : f.Like token f' →
    pairing.position (some p) (some p') → same (.fault f p) (.fault f' p')
  same_exhausted {p p' : Position} : pairing.position (some p) (some p') →
    same (.exhausted p) (.exhausted p')

open Scriptlet.Parser

namespace Reading

variable {σ : Reading} {α β : Type}

theorem current_corresponds {c c' : Cursor} (h : σ.near c c') :
    c.current.Corresponds σ.pairing c'.current :=
  σ.token_corresponds (σ.near_current h)

def after (σ : Reading) (c c' : Cursor) : Prop :=
  σ.near c c' ∨ σ.apart c c'

def Turns (σ : Reading) (n n' : Nat) : Prop :=
  n = n' ∨ n ≤ n' ∧ ∀ p, σ.lost (.exhausted p)

structure Around (σ : Reading) (s s' : Surroundings) : Prop where
  nesting : s.nesting = s'.nesting
  inFunction : s.inFunction = s'.inFunction
  length : σ.Turns s.length s'.length
  limit (k : Nat) : s'.maxNesting ≤ k → s.maxNesting ≤ k
  deep {p p' : Position} : σ.pairing.position (some p) (some p') →
    σ.lost (.nesting s.maxNesting p) ∨
      s.maxNesting = s'.maxNesting ∧ σ.same (.nesting s.maxNesting p) (.nesting s.maxNesting p')

inductive Beside (σ : Reading) (End : Cursor → Cursor → Prop) (Q : α → α → Prop) :
    Except ParseError (α × Cursor) → Except ParseError (α × Cursor) → Prop
  | result {a a' : α} {d d' : Cursor} (h : Q a a') (hd : End d d') :
      Beside σ End Q (.ok (a, d)) (.ok (a', d'))
  | same {e e' : ParseError} (h : σ.same e e') : Beside σ End Q (.error e) (.error e')
  | lost {e : ParseError} (h : σ.lost e) (x : Except ParseError (α × Cursor)) :
      Beside σ End Q (.error e) x

section

variable {End End' : Cursor → Cursor → Prop} {Q R : α → α → Prop} {s s' : Surroundings}
  {c c' : Cursor} {p p' : Parser α}

theorem Beside.mono {x x' : Except ParseError (α × Cursor)} (h : Beside σ End Q x x')
    (hend : ∀ d d', End d d' → End' d d') (hQ : ∀ a a', Q a a' → R a a') :
    Beside σ End' R x x' := by
  cases h with
  | result h hd => exact .result (hQ _ _ h) (hend _ _ hd)
  | same h => exact .same h
  | lost h => exact .lost h _

theorem Beside.bind {R : β → β → Prop} {f f' : α → Parser β} (h : Beside σ End Q (p s c) (p' s' c'))
    (hf : ∀ a a' d d', Q a a' → End d d' → Beside σ End' R (f a s d) (f' a' s' d')) :
    Beside σ End' R ((p >>= f) s c) ((p' >>= f') s' c') := by
  rw [bind_apply, bind_apply]
  generalize p s c = x at h
  generalize p' s' c' = x' at h
  cases h with
  | result h hd => exact hf _ _ _ _ h hd
  | same h => exact .same h
  | lost h => exact .lost h _

theorem beside_pure {a a' : α} (h : Q a a') (hc : End c c') :
    Beside σ End Q ((pure a : Parser α) s c) ((pure a' : Parser α) s' c') :=
  .result h hc

theorem Beside.bind_current {f f' : Token → Parser α}
    (h : Beside σ End Q (f c.current s c) (f' c'.current s' c')) :
    Beside σ End Q ((current >>= f) s c) ((current >>= f') s' c') :=
  h

theorem Beside.bind_currentKind {f f' : TokenKind → Parser α} (hc : σ.near c c')
    (h : Beside σ End Q (f c.current.kind s c) (f' c.current.kind s' c')) :
    Beside σ End Q ((currentKind >>= f) s c) ((currentKind >>= f') s' c') := by
  change Beside σ End Q (f c.current.kind s c) (f' c'.current.kind s' c')
  rwa [← (σ.current_corresponds hc).kind]

theorem Beside.bind_read {f f' : Surroundings → Parser α}
    (h : Beside σ End Q (f s s c) (f' s' s' c')) :
    Beside σ End Q ((read >>= f) s c) ((read >>= f') s' c') :=
  h

theorem beside_fault {f f' : SyntaxFault} {q q' : Position} (hf : f.Like σ.token f')
    (hq : σ.pairing.position (some q) (some q')) :
    Beside σ End Q (fault f q s c) (fault f' q' s' c') :=
  .same (σ.same_fault hf hq)

theorem beside_exhausted (hc : σ.near c c') :
    Beside σ End Q (exhausted s c) (exhausted s' c') :=
  .same (σ.same_exhausted (σ.current_corresponds hc).pos)

theorem beside_exhausted_left {n' : Nat} (hn : σ.Turns 0 n') (hc : σ.near c c')
    (h : n' = 0 → p' s' c' = exhausted s' c') : Beside σ End Q (exhausted s c) (p' s' c') := by
  rcases hn with hn | ⟨-, hlost⟩
  · rw [h hn.symm]
    exact beside_exhausted hc
  · exact .lost (hlost _) _

theorem Turns.pred {n n' : Nat} (h : σ.Turns (n + 1) n') : ∃ k, n' = k + 1 ∧ σ.Turns n k := by
  rcases h with rfl | ⟨hle, hlost⟩
  · exact ⟨n, rfl, .inl rfl⟩
  · exact ⟨n' - 1, by omega, .inr ⟨by omega, hlost⟩⟩

theorem beside_take (hc : σ.near c c') (hk : c.current.kind ≠ .endOfInput) :
    Beside σ (fun d d' => d.current = c.next ∧
        (σ.near d d' ∨ c.current.kind = .symbol .semicolon ∧ σ.apart d d'))
      (Token.Like σ.pairing) (take s c) (take s' c') := by
  rw [take_apply, take_apply]
  rcases σ.near_advance hc hk with ⟨d, d', hd, hd', hend⟩ | ⟨e, he, hlost | ⟨e', he', hsame⟩⟩
  · rw [hd, hd']
    exact .result ((σ.current_corresponds hc).like hk) ⟨Cursor.advance_current hd, hend⟩
  · rw [he]
    exact .lost hlost _
  · rw [he, he']
    exact .same hsame

theorem beside_take_near (hc : σ.near c c') (hk : c.current.kind ≠ .endOfInput)
    (hs : c.current.kind ≠ .symbol .semicolon) :
    Beside σ (fun d d' => d.current = c.next ∧ σ.near d d') (Token.Like σ.pairing) (take s c)
      (take s' c') :=
  (beside_take hc hk).mono (fun _ _ => .imp_right fun hend => hend.resolve_right fun h => hs h.1)
    fun _ _ => id

theorem beside_require (hc : σ.near c c') {kind : TokenKind} (hk : kind ≠ .endOfInput) (slot : Slot) :
    Beside σ (fun d d' => σ.near d d' ∨ kind = .symbol .semicolon ∧ σ.apart d d')
      (Token.Like σ.pairing) (require kind slot s c) (require kind slot s' c') := by
  have ht := σ.current_corresponds hc
  apply Beside.bind_current
  rw [← ht.kind]
  split
  · rename_i h
    subst h
    exact (beside_take hc hk).mono (fun _ _ => And.right) fun _ _ => id
  · exact beside_fault (.missing kind slot (σ.near_current hc)) ht.pos

theorem beside_require_near (hc : σ.near c c') {kind : TokenKind} (hk : kind ≠ .endOfInput)
    (hs : kind ≠ .symbol .semicolon) (slot : Slot) :
    Beside σ σ.near (Token.Like σ.pairing) (require kind slot s c) (require kind slot s' c') :=
  (beside_require hc hk slot).mono (fun _ _ hend => hend.resolve_right fun h => hs h.1) fun _ _ => id

theorem beside_accept (hc : σ.near c c') {kind : TokenKind} (hk : kind ≠ .endOfInput)
    (hs : kind ≠ .symbol .semicolon) :
    Beside σ σ.near Eq (accept kind s c) (accept kind s' c') := by
  apply Beside.bind_currentKind hc
  split
  · rename_i h
    subst h
    exact (beside_take_near hc hk hs).bind fun _ _ _ _ _ hd => beside_pure rfl hd.2
  · exact beside_pure rfl hc

theorem Around.deeper (h : σ.Around s s') :
    σ.Around { s with nesting := s.nesting + 1 } { s' with nesting := s'.nesting + 1 } :=
  { h with nesting := congrArg (· + 1) h.nesting }

theorem Around.function (h : σ.Around s s') :
    σ.Around { s with inFunction := true } { s' with inFunction := true } :=
  { h with inFunction := rfl }

theorem nested_cases {P : Except ParseError (α × Cursor) → Except ParseError (α × Cursor) → Prop}
    (hs : σ.Around s s') (hc : σ.near c c')
    (hsame : ∀ {e e'}, σ.same e e' → P (.error e) (.error e'))
    (hlost : ∀ {e} x, σ.lost e → P (.error e) x)
    (h : P (p { s with nesting := s.nesting + 1 } c) (p' { s' with nesting := s'.nesting + 1 } c')) :
    P (nested p s c) (nested p' s' c') := by
  have hpos := (σ.current_corresponds hc).pos
  rw [nested_apply, nested_apply]
  by_cases hleft : s.maxNesting ≤ s.nesting
  · rw [if_pos hleft]
    rcases hs.deep hpos with hdeep | ⟨hlimit, hdeep⟩
    · exact hlost _ hdeep
    · rw [← hlimit, ← hs.nesting, if_pos hleft]
      exact hsame hdeep
  · have hright : ¬s'.maxNesting ≤ s'.nesting := fun h => hleft (hs.limit _ (hs.nesting ▸ h))
    rw [if_neg hleft, if_neg hright]
    exact h

theorem Beside.nested (hs : σ.Around s s') (hc : σ.near c c')
    (h : Beside σ End Q (p { s with nesting := s.nesting + 1 } c)
      (p' { s' with nesting := s'.nesting + 1 } c')) :
    Beside σ End Q (nested p s c) (nested p' s' c') :=
  nested_cases hs hc .same (fun x hx => .lost hx x) h

end

end Reading

end Scriptlet
