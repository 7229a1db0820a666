import Scriptlet.Proofs.LikeStreams
import Scriptlet.Proofs.LoopBounds

namespace Scriptlet

open Cursor Scriptlet.Parser

def Token.endOf (ts : List Token) : Token :=
  ts.getLast?.elim (.endOfInput .start 0) Token.endBehind

def Pairing.ends (e e' : Token) : Pairing :=
  { Pairing.identity with
    position := fun p p' => p = p' ∨ p = some e.pos ∧ p' = some e'.pos
    position_none := .inl rfl
    position_isSome := by rintro p p' (rfl | ⟨rfl, rfl⟩) <;> rfl }

theorem Token.kind_endOf (ts : List Token) : (endOf ts).kind = .endOfInput := by
  unfold endOf
  cases ts.getLast? with
  | none => rfl
  | some t => exact kind_endBehind t

namespace Cursor

variable {c c' : Cursor} {ts : List Token} {e e' : Token}

theorem faces_endOf (herror : c.error = none) (h : c.current :: c.next :: c.rest = ts) :
    c.Faces ts (.endOf ts) := by
  obtain ⟨current, next, rest, error⟩ := c
  obtain rfl : error = none := herror
  subst h
  induction rest generalizing current next with
  | nil =>
    have hend : Faces ⟨next, next.endBehind, [], none⟩ [next] next.endBehind := faces_of_eq rfl rfl
    exact ⟨rfl, rfl, _, rfl, hend⟩
  | cons u rest ih =>
    have hlast : Token.endOf (current :: next :: u :: rest) = .endOf (next :: u :: rest) := by
      simp [Token.endOf]
    rw [hlast]
    exact ⟨rfl, rfl, _, rfl, ih next u⟩

theorem ofStream_faces_endOf (ts : List Token) :
    ∃ c, ofStream ⟨ts, none⟩ = .ok c ∧ c.Faces ts (.endOf ts) := by
  match ts with
  | [] => exact ⟨_, rfl, rfl, rfl⟩
  | [t] => exact ⟨⟨t, t.endBehind, [], none⟩, rfl, faces_of_eq rfl rfl⟩
  | t :: u :: ts => exact ⟨⟨t, u, ts, none⟩, rfl, faces_endOf rfl rfl⟩

structure FacesWith (e e' : Token) (c c' : Cursor) : Prop where
  faces : ∃ ts, (∀ t ∈ ts, t.kind ≠ .endOfInput) ∧ c.Faces ts e ∧ c'.Faces ts e'
  left : e.kind = .endOfInput
  right : e'.kind = .endOfInput

namespace FacesWith

theorem current (h : FacesWith e e' c c') :
    c.current = c'.current ∧ c.current.kind ≠ .endOfInput ∨ c.current = e ∧ c'.current = e' := by
  obtain ⟨ts, hts, hc, hc'⟩ := h.faces
  cases ts with
  | nil => exact .inr ⟨hc.current_nil, hc'.current_nil⟩
  | cons t ts =>
    left
    rw [hc.advance.1, hc'.advance.1]
    exact ⟨rfl, hts t List.mem_cons_self⟩

theorem advance (h : FacesWith e e' c c') (hc : c.current.kind ≠ .endOfInput) :
    ∃ d d', c.advance = .ok d ∧ c'.advance = .ok d' ∧ FacesWith e e' d d' := by
  obtain ⟨ts, hts, hfaces, hfaces'⟩ := h.faces
  cases ts with
  | nil => exact absurd (hfaces.current_nil ▸ h.left) hc
  | cons t ts =>
    obtain ⟨-, d, hd, hfaces⟩ := hfaces.advance
    obtain ⟨-, d', hd', hfaces'⟩ := hfaces'.advance
    exact ⟨d, d', hd, hd', ⟨ts, (List.forall_mem_cons.mp hts).2, hfaces, hfaces'⟩, h.left, h.right⟩

theorem kind (h : FacesWith e e' c c') : c.current.kind = c'.current.kind := by
  rcases h.current with ⟨heq, -⟩ | ⟨heq, heq'⟩
  · rw [heq]
  · rw [heq, heq', h.left, h.right]

end FacesWith

end Cursor

structure Token.OrEnds (e e' t t' : Token) : Prop where
  token : t = t' ∧ t.kind ≠ .endOfInput ∨ t = e ∧ t' = e'
  left : e.kind = .endOfInput
  right : e'.kind = .endOfInput

section

variable {e e' : Token}

theorem Token.OrEnds.corresponds {t t' : Token} (h : OrEnds e e' t t') :
    t.Corresponds (.ends e e') t' := by
  obtain ⟨⟨rfl, -⟩ | ⟨rfl, rfl⟩, he, he'⟩ := h
  · exact .inl ⟨rfl, rfl, rfl, .inl rfl⟩
  · exact .inr ⟨he, he', .inr ⟨rfl, rfl⟩⟩

theorem Token.OrEnds.eq {t t' : Token} (h : OrEnds e e t t') : t = t' := by
  rcases h.token with ⟨heq, -⟩ | ⟨heq, heq'⟩
  · exact heq
  · rw [heq, heq']

theorem Pairing.position_of_ends {p p' : Option Position}
    (h : (Pairing.ends e e).position p p') : p = p' := by
  rcases h with heq | ⟨heq, heq'⟩
  · exact heq
  · rw [heq, heq']

def endsReading (e e' : Token) : Reading where
  pairing := .ends e e'
  token := Token.OrEnds e e'
  near := FacesWith e e'
  apart _ _ := False
  same x x' := x.failure.Like (.ends e e') x'.failure ∧ (e = e' → x = x')
  lost _ := False
  token_corresponds := Token.OrEnds.corresponds
  near_current h := ⟨h.current, h.left, h.right⟩
  near_next h hk := by
    obtain ⟨d, d', hd, hd', hnear⟩ := h.advance (by rw [hk]; decide)
    rw [← advance_current hd, ← advance_current hd', hnear.kind]
  near_advance h hk := by
    obtain ⟨d, d', hd, hd', hnear⟩ := h.advance hk
    exact .inl ⟨d, d', hd, hd', .inl hnear⟩
  apart_ended := Ended.of_false
  same_fault hf hp := ⟨hf.failure Token.OrEnds.corresponds hp, by
    rintro rfl
    exact (hf.mono Token.OrEnds.eq).fault_eq (Pairing.position_of_ends hp)⟩
  same_exhausted hp := ⟨.sourceTooDeep _ _ hp, by
    rintro rfl
    exact ParseError.exhausted_eq (Pairing.position_of_ends hp)⟩

namespace Program

variable {ts : List Token} (hts : ∀ t ∈ ts, t.kind ≠ .endOfInput) {c c' : Cursor}
  {length length' : Nat} (room : Nat) (N : Int)

include hts

theorem declarations_ends (he : e.kind = .endOfInput) (he' : e'.kind = .endOfInput)
    (hc : c.Faces ts e) (hc' : c'.Faces ts e') (hlength : ts.length < length)
    (hlength' : ts.length < length') :
    (∃ ns d d', declarations room N length c = .ok (ns, d) ∧
        declarations room N length' c' = .ok (ns, d')) ∨
      ∃ x x', declarations room N length c = .error x ∧ declarations room N length' c' = .error x' ∧
        (endsReading e e').same x x' := by
  have hahead : c'.ahead.length = ts.length := congrArg _ (hc'.ahead hts he')
  have hbound : declarations room N length' c' = declarations room N length c' :=
    declarations_length (by omega) (by omega)
  rw [hbound]
  let σ := endsReading e e'
  have hs : σ.Around ⟨N, 0, false, length⟩ ⟨N, 0, false, length⟩ := {
    nesting := rfl
    inFunction := rfl
    length := .inl rfl
    limit := fun _ => id
    deep := fun hp => .inr ⟨rfl, .diagnosed _ _ hp, by
      rintro rfl
      rw [Option.some.inj (Pairing.position_of_ends hp)]⟩ }
  have hnear : σ.near c c' := ⟨⟨ts, hts, hc, hc'⟩, he, he'⟩
  have hbeside := (σ.loops_declarations room hs hnear).beside fun _ _ => id
  generalize hleft : declarations room N length c = x at hbeside ⊢
  generalize hright : declarations room N length c' = x' at hbeside ⊢
  cases hbeside with
  | same h => exact .inr ⟨_, _, rfl, rfl, h⟩
  | lost h => exact h.elim
  | result =>
    -- Both trees are the one that the tokens stand for.
    have hns := derives_of_declarations hts he hc hleft
    have hns' := derives_of_declarations hts he' hc' hright
    rw [derives_unique hts he hns hns']
    exact .inl ⟨_, _, _, rfl, rfl⟩

theorem ofTokens_ends {s s' : TokenStream} (he : e.kind = .endOfInput) (he' : e'.kind = .endOfInput)
    (hs : ∃ c, ofStream s = .ok c ∧ c.Faces ts e) (hs' : ∃ c, ofStream s' = .ok c ∧ c.Faces ts e')
    (hlength : ts.length ≤ s.tokens.length) (hlength' : ts.length ≤ s'.tokens.length) :
    (∃ p, ofTokens room N s = .ok p ∧ ofTokens room N s' = .ok p) ∨
      ∃ x x', ofTokens room N s = .error x ∧ ofTokens room N s' = .error x' ∧
        (endsReading e e').same x x' := by
  obtain ⟨c, hstream, hc⟩ := hs
  obtain ⟨c', hstream', hc'⟩ := hs'
  rw [ofTokens_eq hstream, ofTokens_eq hstream']
  obtain ⟨ns, d, d', hns, hns'⟩ | ⟨x, x', hx, hx', hsame⟩ := declarations_ends hts room N he he' hc hc'
    (Nat.lt_succ_of_le hlength) (Nat.lt_succ_of_le hlength')
  · rw [hns, hns']
    exact .inl ⟨⟨ns⟩, rfl, rfl⟩
  · rw [hx, hx']
    exact .inr ⟨x, x', rfl, rfl, hsame⟩

/-- The end of the input is the end, wherever it stands: nothing behind it counts. Where it is missing
one is made up, and the tokens come to the same tree, with the same places in it, or to the same
error at the same place, unless that is the place of the end. -/
theorem ofTokens_endOfInput {eof : Token} (heof : eof.kind = .endOfInput) (junk : List Token) :
    let parsed := ofTokens room N ⟨ts ++ [eof], none⟩
    let parsed' := ofTokens room N ⟨ts, none⟩
    ofTokens room N ⟨ts ++ eof :: junk, none⟩ = parsed ∧
      ((∃ p, parsed = .ok p ∧ parsed' = .ok p) ∨
        ∃ e e', parsed = .error e ∧ parsed' = .error e' ∧
          e.failure.Like (.ends eof (.endOf ts)) e'.failure) := by
  have hclosed (us : List Token) : ts.length ≤ (ts ++ eof :: us).length := by simp
  refine ⟨?_, ?_⟩
  · obtain ⟨p, hp, hp'⟩ | ⟨x, x', hx, hx', -, hsame⟩ := ofTokens_ends hts room N heof heof
      (ofStream_faces heof) (ofStream_faces heof) (hclosed junk) (hclosed [])
    · exact hp.trans hp'.symm
    · exact hx.trans (hsame rfl ▸ hx'.symm)
  · obtain hp | ⟨x, x', hx, hx', hlike, -⟩ := ofTokens_ends hts room N heof (Token.kind_endOf ts)
      (ofStream_faces heof) (ofStream_faces_endOf ts) (hclosed []) (Nat.le_refl _)
    · exact .inl hp
    · exact .inr ⟨x, x', hx, hx', hlike⟩

omit hts

theorem ofTokens_endOfInput_open :
    let paren : Token := ⟨.symbol .leftParen, "(", .start, 0, none⟩
    let eof : Token := .endOfInput ⟨3, 7⟩ 12
    (∀ t ∈ [paren], t.kind ≠ .endOfInput) ∧ eof.kind = .endOfInput ∧
      ofTokens 10 4 ⟨[paren, eof, paren], none⟩ =
        .error (.fault (.noExpression eof) ⟨3, 7⟩) ∧
      ∃ e, ofTokens 10 4 ⟨[paren], none⟩ = .error e ∧
        (ParseError.fault (.noExpression eof) ⟨3, 7⟩).failure.Like (.ends eof (.endOf [paren]))
          e.failure := by
  intro paren eof
  have hparen : ∀ t ∈ [paren], t.kind ≠ .endOfInput := by
    simp [paren]
  have hparsed : ofTokens 10 4 ⟨[paren] ++ [eof], none⟩ =
      .error (.fault (.noExpression eof) ⟨3, 7⟩) := rfl
  obtain ⟨hjunk, ⟨p, hp, -⟩ | ⟨e, e', he, he', hlike⟩⟩ :=
    ofTokens_endOfInput hparen 10 4 (rfl : eof.kind = .endOfInput) [paren]
  · rw [hparsed] at hp
    cases hp
  · rw [hparsed] at he
    obtain rfl := Except.error.inj he
    exact ⟨hparen, rfl, hjunk.trans hparsed, e', he', hlike⟩

end Program

end

end Scriptlet
