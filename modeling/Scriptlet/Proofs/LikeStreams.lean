import Scriptlet.Proofs.ParallelGrammar

namespace Scriptlet

open Scriptlet.Parser

def Pairing.Lined (ρ : Pairing) : Prop :=
  ∀ (p p' : Position) (k : Int), ρ.position (some p) (some p') →
    ρ.position (some ⟨p.line, p.column + k⟩) (some ⟨p'.line, p'.column + k⟩)

inductive ParseError.Like (ρ : Pairing) : ParseError → ParseError → Prop
  | fault {f f' : SyntaxFault} {p p' : Position} (hf : f.Like (Token.Like ρ) f')
      (hp : ρ.position (some p) (some p')) : ParseError.Like ρ (.fault f p) (.fault f' p')
  | nesting {p p' : Position} (limit : Int) (hp : ρ.position (some p) (some p')) :
      ParseError.Like ρ (.nesting limit p) (.nesting limit p')
  | exhausted {p p' : Position} (hp : ρ.position (some p) (some p')) :
      ParseError.Like ρ (.exhausted p) (.exhausted p')

structure Cursor.Like (ρ : Pairing) (c c' : Cursor) : Prop where
  tokens : List.Forall₂ (Token.Like ρ) (c.current :: c.next :: c.rest)
    (c'.current :: c'.next :: c'.rest)
  left : c.error = none
  right : c'.error = none

section

variable {ρ : Pairing}

theorem Token.Like.endBehind (hρ : ρ.Lined) {t t' : Token} (h : t.Like ρ t') :
    t.endBehind.Like ρ t'.endBehind := by
  unfold Token.endBehind
  rw [← h.kind, ← h.text]
  split
  · exact h
  · exact ⟨rfl, rfl, rfl, hρ _ _ _ h.pos⟩

theorem Cursor.Like.advance (hρ : ρ.Lined) {c c' : Cursor} (h : c.Like ρ c') :
    ∃ d d', c.advance = .ok d ∧ c'.advance = .ok d' ∧ d.Like ρ d' := by
  obtain ⟨current, next, rest, error⟩ := c
  obtain ⟨current', next', rest', error'⟩ := c'
  obtain ⟨htokens, rfl, rfl⟩ := h
  cases htokens with
  | cons hcurrent htokens =>
    cases htokens with
    | cons hnext hrest =>
      cases hrest with
      | nil => exact ⟨_, _, rfl, rfl, .cons hnext (.cons (hnext.endBehind hρ) .nil), rfl, rfl⟩
      | cons ht hrest => exact ⟨_, _, rfl, rfl, .cons hnext (.cons ht hrest), rfl, rfl⟩

theorem Token.Corresponds.describe {t t' : Token} (h : t.Corresponds ρ t') :
    t.describe = t'.describe := by
  unfold Token.describe
  rcases h with h | h
  · rw [h.kind, h.text]
  · rw [if_pos h.left, if_pos h.right]

theorem SyntaxFault.Like.diagnose {R : Token → Token → Prop}
    (hR : ∀ {t t'}, R t t' → t.Corresponds ρ t') {f f' : SyntaxFault} (h : f.Like R f') :
    f.message = f'.message ∧ f.expected = f'.expected ∧ f.found = f'.found := by
  cases h with
  | missing kind slot ht =>
    have hmessage := congrArg (fun found => s!"Expected {kind.describe} {slot.describe}, got {found}.")
      (hR ht).describe
    exact ⟨hmessage, rfl, (hR ht).kind⟩
  | noExpression ht =>
    have hmessage := congrArg (fun found => s!"Expected expression, got {found}.") (hR ht).describe
    exact ⟨hmessage, rfl, (hR ht).kind⟩
  | _ => exact ⟨rfl, rfl, rfl⟩

theorem SyntaxFault.Like.failure {R : Token → Token → Prop}
    (hR : ∀ {t t'}, R t t' → t.Corresponds ρ t') {f f' : SyntaxFault} (h : f.Like R f')
    {p p' : Position} (hp : ρ.position (some p) (some p')) :
    (ParseError.fault f p).failure.Like ρ (ParseError.fault f' p').failure := by
  obtain ⟨hmessage, hexpected, hfound⟩ := h.diagnose hR
  simp only [ParseError.failure, hmessage, hexpected, hfound]
  exact .diagnosed _ _ hp

theorem ParseError.Like.failure {e e' : ParseError} (h : e.Like ρ e') :
    e.failure.Like ρ e'.failure := by
  cases h with
  | fault hf hp => exact hf.failure .inl hp
  | nesting limit hp => exact .diagnosed _ _ hp
  | exhausted hp => exact .sourceTooDeep _ _ hp

def likeReading (ρ : Pairing) (hρ : ρ.Lined) (lost : ParseError → Prop) : Reading where
  pairing := ρ
  token := Token.Like ρ
  near := Cursor.Like ρ
  apart _ _ := False
  same := ParseError.Like ρ
  lost := lost
  token_corresponds := .inl
  near_current h := (List.forall₂_cons.mp h.tokens).1
  near_next h _ := by
    obtain ⟨-, htokens⟩ := List.forall₂_cons.mp h.tokens
    rw [(List.forall₂_cons.mp htokens).1.kind]
  near_advance h _ := by
    obtain ⟨d, d', hd, hd', hlike⟩ := h.advance hρ
    exact .inl ⟨d, d', hd, hd', .inl hlike⟩
  apart_ended := Ended.of_false
  same_fault := .fault
  same_exhausted := .exhausted

inductive ParsedAlike (ρ : Pairing) :
    Except ParseError Program → Except ParseError Program → Prop
  | program {p p' : Program} (h : List.Forall₂ (Node.Like ρ) p.statements p'.statements) :
      ParsedAlike ρ (.ok p) (.ok p')
  | error {e e' : ParseError} (h : e.Like ρ e') : ParsedAlike ρ (.error e) (.error e')

theorem like_ofStream (hρ : ρ.Lined) {ts ts' : List Token}
    (hstart : ts = [] → ρ.position (some .start) (some .start))
    (h : List.Forall₂ (Token.Like ρ) ts ts') :
    ∃ c c', Cursor.ofStream ⟨ts, none⟩ = .ok c ∧ Cursor.ofStream ⟨ts', none⟩ = .ok c' ∧
      c.Like ρ c' := by
  cases h with
  | nil =>
    have hend : (Token.endOfInput .start 0).Like ρ (.endOfInput .start 0) :=
      ⟨rfl, rfl, rfl, hstart rfl⟩
    exact ⟨_, _, rfl, rfl, .cons hend (.cons hend .nil), rfl, rfl⟩
  | cons ht hts =>
    cases hts with
    | nil => exact ⟨_, _, rfl, rfl, .cons ht (.cons (ht.endBehind hρ) .nil), rfl, rfl⟩
    | cons hu hts => exact ⟨_, _, rfl, rfl, .cons ht (.cons hu hts), rfl, rfl⟩

theorem Program.parsedAlike (hρ : ρ.Lined) (hstart : ρ.position (some .start) (some .start))
    {ts ts' : List Token} (h : List.Forall₂ (Token.Like ρ) ts ts') (room : Nat) (maxNesting : Int) :
    ParsedAlike ρ (ofTokens room maxNesting ⟨ts, none⟩) (ofTokens room maxNesting ⟨ts', none⟩) := by
  obtain ⟨c, c', hc, hc', hlike⟩ := like_ofStream hρ (fun _ => hstart) h
  let σ := likeReading ρ hρ fun _ => False
  have hs : σ.Around ⟨maxNesting, 0, false, ts.length + 1⟩ ⟨maxNesting, 0, false, ts'.length + 1⟩ :=
    ⟨rfl, rfl, .inl (congrArg (· + 1) h.length_eq), fun _ => id,
      fun hp => .inr ⟨rfl, .nesting maxNesting hp⟩⟩
  have hbeside := (σ.loops_declarations room hs hlike).beside fun _ _ => id
  rw [ofTokens_eq hc, ofTokens_eq hc']
  generalize declarations room maxNesting _ c = x at hbeside ⊢
  generalize declarations room maxNesting _ c' = x' at hbeside ⊢
  cases hbeside with
  | result hns _ => exact .program hns
  | same h => exact .error h
  | lost h => exact h.elim

end

end Scriptlet
