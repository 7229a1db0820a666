import Scriptlet.Proofs.JoinedPrograms
import Scriptlet.Proofs.LoopBounds
import Scriptlet.Proofs.PinpointedRules

namespace Scriptlet

open Cursor Scriptlet.Parser

def ParseError.IsLimit : ParseError → Prop
  | nesting _ _ | exhausted _ => True
  | scan _ | fault _ _ => False

namespace Program

variable {ts us : List Token} {eof : Token} {room room' length length' : Nat} {N N' : Int} {c : Cursor}
  {g : SyntaxFault} {pos : Position}

/-- The parser accepts the tokens in front of an end of the input, if nothing limits it. -/
def Accepts (ts : List Token) : Prop :=
  (∀ t ∈ ts, t.kind ≠ .endOfInput) ∧
    ∃ eof room N p, eof.kind = .endOfInput ∧ ofTokens room N ⟨ts ++ [eof], none⟩ = .ok p

theorem accepts_iff : Accepts ts ↔ Forms false .declarations ts := by
  constructor
  · rintro ⟨hts, eof, room, N, p, heof, h⟩
    exact ⟨_, derives_of_ofTokens hts heof h⟩
  · rintro ⟨ns, hns⟩
    have hts := hns.kind_ne_endOfInput
    have heof : (Token.endOfInput .start 0).kind = .endOfInput := rfl
    obtain ⟨c, hstream, hc⟩ : ∃ c, ofStream ⟨ts ++ [.endOfInput .start 0], none⟩ = .ok c ∧
        c.Faces ts (.endOfInput .start 0) := ofStream_faces heof
    obtain ⟨d, hd⟩ := declarations_of_derives hts heof (Int.le_refl (2 * ts.length + 2 : Nat))
      (Nat.le_refl _) hc hns
    have hlength : (ts ++ [Token.endOfInput .start 0]).length + 1 = ts.length + 2 := by simp
    refine ⟨hts, .endOfInput .start 0, 5 * ts.length + 5, (2 * ts.length + 2 : Nat), ⟨ns⟩, heof, ?_⟩
    rw [ofTokens_eq hstream, hlength, hd]
    rfl

theorem declarations_fault (hN : N ≤ N') (hlength : length ≤ length') (more : Nat)
    (h : declarations room N length c = .error (.fault g pos)) :
    declarations (room + more) N' length' c = .error (.fault g pos) := by
  let σ := streamReading Eq ParseError.IsLimit fun _ _ => rfl
  have hlast (recur : Rule → Parser Node) : σ.Parallel (fun _ => exhausted) recur :=
    fun _ _ _ c _ _ _ => .lost (show (ParseError.exhausted c.current.pos).IsLimit from trivial) _
  have hs : σ.Around ⟨N, 0, false, length⟩ ⟨N', 0, false, length'⟩ :=
    ⟨rfl, rfl, .inr ⟨hlength, fun _ => trivial⟩, fun _ => hN.trans, fun _ => .inl trivial⟩
  have hbeside := Reading.beside_stream (Reading.parallel_more_room hlast room more) hs c
  rw [← Rule.parse_eq_parseOr] at hbeside
  unfold declarations at h ⊢
  rw [h] at hbeside
  generalize manyUntil _ _ length' [] _ c = x at hbeside ⊢
  cases hbeside with
  | same h => rw [h]
  | lost h => exact h.elim

theorem not_forms_of_fault (heof : eof.kind = .endOfInput) (hc : c.Faces ts eof)
    (h : declarations room N length c = .error (.fault g pos) ∨
      ∃ e, declarations room N length c = .error (.scan e)) : ¬Forms false .declarations ts := by
  rintro ⟨ns, hns⟩
  have hts := hns.kind_ne_endOfInput
  rcases h with h | ⟨e, h⟩
  · have hparse : ∃ d, declarations (room + (5 * ts.length + 5)) (max N (2 * ts.length + 2))
        (ts.length + 2) c = .ok (ns, d) :=
      declarations_of_derives hts heof (Int.le_max_right ..) (by omega) hc hns
    obtain ⟨d, hd⟩ := hparse
    have hahead : c.ahead.length = ts.length := congrArg _ (hc.ahead hts heof)
    have hfault := declarations_fault (Int.le_max_left N (2 * ts.length + 2))
      (Nat.le_max_left length (ts.length + 2)) (5 * ts.length + 5) h
    have hlength : declarations (room + (5 * ts.length + 5)) (max N (2 * ts.length + 2))
        (max length (ts.length + 2)) c = .ok (ns, d) :=
      (declarations_length (by omega) (by omega)).trans hd
    rw [hlength] at hfault
    cases hfault
  · obtain ⟨us, d, hp, hreason⟩ := reason_of_declarations h
    obtain ⟨vs, -, hd⟩ := hp.faces heof hc
    exact hd.advance_ne_error e hreason

theorem pinpointed (hts : ∀ t ∈ ts, t.kind ≠ .endOfInput) (heof : eof.kind = .endOfInput)
    (hequals : EqualsPaired ts) (h : ofTokens room N ⟨ts ++ [eof], none⟩ = .error (.fault g pos)) :
    ∃ us t rest, ts ++ [eof] = us ++ t :: rest ∧ pos = t.pos ∧ g.found = t.kind ∧
      Grammar.RowBreaks false [.endOfInput] g us t ∧
      (t.kind ≠ .endOfInput → ∀ ws, ¬Accepts (us ++ t :: ws)) ∧
      (t.kind = .endOfInput → ¬Accepts us) := by
  obtain ⟨c, hstream, hc⟩ : ∃ c, ofStream ⟨ts ++ [eof], none⟩ = .ok c ∧ c.Faces ts eof :=
    ofStream_faces heof
  have hfault : declarations room N ((ts ++ [eof]).length + 1) c = .error (.fault g pos) := by
    rw [ofTokens_eq hstream] at h
    generalize declarations room N _ c = x at h ⊢
    cases x with
    | ok r => cases h
    | error e => exact congrArg _ (Except.error.inj h)
  have hahead : EqualsPaired c.ahead := hc.ahead hts heof ▸ hequals
  have hpin := Grammar.pinpoints_manyUntil (s := ⟨N, 0, false, (ts ++ [eof]).length + 1⟩)
    (sound_parse room) (pinned_parse room) (List.mem_singleton_self _) ((ts ++ [eof]).length + 1) []
    hahead
  unfold Pinpoints at hpin
  rw [declarations] at hfault
  rw [hfault] at hpin
  obtain ⟨us, d, hp, hpos, hfound, hbreaks, hsame⟩ := hpin
  obtain ⟨vs, rfl, hd⟩ := hp.faces heof hc
  have hus : ∀ u ∈ us, u.kind ≠ .endOfInput := fun u hu => hts u (List.mem_append_left _ hu)
  obtain ⟨rest, hrest⟩ : ∃ rest, us ++ vs ++ [eof] = us ++ d.current :: rest := by
    cases vs with
    | nil => exact ⟨[], by simp [hd.current_nil]⟩
    | cons v vs => exact ⟨vs ++ [eof], by simp [hd.advance.1]⟩
  -- Any tokens that go on alike up to the fault lead to the same fault, so they are no program.
  refine ⟨us, d.current, rest, hrest, hpos, hfound, hbreaks, fun ht ws hws => ?_, fun ht hus' => ?_⟩
  · obtain ⟨c', -, hc'⟩ : ∃ c', ofStream ⟨us ++ d.current :: ws ++ [eof], none⟩ = .ok c' ∧
        c'.Faces (us ++ d.current :: ws) eof := ofStream_faces heof
    obtain ⟨d', hp', hd'⟩ := hc'.passes hus
    exact not_forms_of_fault heof hc' (hsame c' d' hp' hd'.advance.1) (accepts_iff.mp hws)
  · obtain ⟨c', -, hc'⟩ : ∃ c', ofStream ⟨us ++ [d.current], none⟩ = .ok c' ∧ c'.Faces us d.current :=
      ofStream_faces ht
    obtain ⟨d', hp', hd'⟩ : ∃ d', c'.Passes us d' ∧ d'.Faces [] d.current :=
      Faces.passes (by rwa [List.append_nil]) hus
    exact not_forms_of_fault ht hc' (hsame c' d' hp' hd'.current_nil) (accepts_iff.mp hus')

/-- The parser blames the first token that cannot stand where it stands, if every equals sign directly
follows `var` and a name. Each kind of token that it names could have stood there, except where a brace
outside of all blocks ends a statement. -/
theorem ofTokens_firstFault (hts : ∀ t ∈ ts, t.kind ≠ .endOfInput) (heof : eof.kind = .endOfInput)
    (hequals : EqualsPaired ts) (h : ofTokens room N ⟨ts ++ [eof], none⟩ = .error (.fault g pos)) :
    ∃ us t rest, ts ++ [eof] = us ++ t :: rest ∧ pos = t.pos ∧ g.found = t.kind ∧
      (∃ ws, Accepts (us ++ ws)) ∧
      (t.kind ≠ .endOfInput → ∀ ws, ¬Accepts (us ++ t :: ws)) ∧ (t.kind = .endOfInput → ¬Accepts us) ∧
      ((∀ k ∈ g.expected, ∃ u ws, u.kind = k ∧ Accepts (us ++ u :: ws)) ∨
        t.kind = .symbol .rightBrace ∧ Accepts us ∧
          ∀ u : Token, u.kind = .symbol .semicolon → Accepts (us ++ [u])) := by
  obtain ⟨us, t, rest, hsplit, hpos, hfound, hbreaks, hnone, hend⟩ := pinpointed hts heof hequals h
  refine ⟨us, t, rest, hsplit, hpos, hfound, ?_, hnone, hend, ?_⟩
  · simp only [accepts_iff]
    exact hbreaks.elim (·.viable) fun h => ⟨[], by simpa using h.2.2.1⟩
  · simp only [accepts_iff]
    exact hbreaks.imp (·.expected) fun h => ⟨h.1, h.2.2⟩

theorem ofTokens_firstFault_open :
    let ts : List Token :=
      [⟨.keyword .varWord, "var", ⟨1, 1⟩, 0, none⟩, ⟨.identifier, "x", ⟨1, 5⟩, 4, none⟩,
        ⟨.symbol .equal, "=", ⟨1, 7⟩, 6, none⟩, ⟨.symbol .leftParen, "(", ⟨1, 9⟩, 8, none⟩,
        ⟨.identifier, "y", ⟨1, 10⟩, 9, none⟩]
    let eof : Token := .endOfInput ⟨1, 11⟩ 10
    let g : SyntaxFault := .missing (.symbol .rightParen) .groupEnd eof
    (∀ t ∈ ts, t.kind ≠ .endOfInput) ∧ EqualsPaired ts ∧
      ofTokens 30 12 ⟨ts ++ [eof], none⟩ = .error (.fault g eof.pos) ∧
      ∃ us t rest, ts ++ [eof] = us ++ t :: rest ∧ eof.pos = t.pos ∧ g.found = t.kind ∧
        (∃ ws, Accepts (us ++ ws)) ∧
        (t.kind ≠ .endOfInput → ∀ ws, ¬Accepts (us ++ t :: ws)) ∧ (t.kind = .endOfInput → ¬Accepts us) ∧
        ((∀ k ∈ g.expected, ∃ u ws, u.kind = k ∧ Accepts (us ++ u :: ws)) ∨
          t.kind = .symbol .rightBrace ∧ Accepts us ∧
            ∀ u : Token, u.kind = .symbol .semicolon → Accepts (us ++ [u])) := by
  intro ts eof g
  have hts : ∀ t ∈ ts, t.kind ≠ .endOfInput := by decide
  have hequals : EqualsPaired ts :=
    .append (.declared (v := ⟨.keyword .varWord, _, _, _, _⟩) rfl rfl) (.of_ne (by decide))
  have hfault : ofTokens 30 12 ⟨ts ++ [eof], none⟩ = .error (.fault g eof.pos) := rfl
  exact ⟨hts, hequals, hfault, ofTokens_firstFault hts rfl hequals hfault⟩

/-- A name and a closing brace. The fault names numbers, but no number can stand behind the name. -/
theorem brace_expects_number :
    let x : Token := ⟨.identifier, "x", ⟨1, 1⟩, 0, none⟩
    let brace : Token := ⟨.symbol .rightBrace, "\x7d", ⟨1, 3⟩, 2, none⟩
    (∀ t ∈ [x, brace], t.kind ≠ .endOfInput) ∧ EqualsPaired [x, brace] ∧
      ofTokens 15 6 ⟨[x, brace] ++ [.endOfInput ⟨1, 4⟩ 3], none⟩ =
        .error (.fault (.noExpression brace) brace.pos) ∧
      TokenKind.number ∈ (SyntaxFault.noExpression brace).expected ∧
      ¬∃ u ws, u.kind = .number ∧ Accepts ([x] ++ u :: ws) := by
  intro x brace
  have hx : EqualsPaired [x, brace] := .of_ne (by decide)
  refine ⟨by decide, hx, rfl, by decide, ?_⟩
  rintro ⟨u, ws, hu, hws⟩
  let eof : Token := .endOfInput ⟨1, 4⟩ 3
  have hts : ∀ t ∈ [x, u], t.kind ≠ .endOfInput := by simp [x, hu]
  have hequals : EqualsPaired [x, u] := .of_ne (by simp [x, hu])
  have hfault : ofTokens 15 6 ⟨[x, u] ++ [eof], none⟩ =
      .error (.fault (.missing (.symbol .semicolon) .expressionEnd u) u.pos) := by
    obtain ⟨kind, text, pos, offset, value⟩ := u
    obtain rfl : kind = .number := hu
    rfl
  obtain ⟨us, t, rest, hsplit, -, hfound, -, hnone, -⟩ := pinpointed hts rfl hequals hfault
  have ht : t.kind = .number := hfound.symm.trans hu
  -- Of the three tokens only the second one is a number.
  rcases us with _ | ⟨a, _ | ⟨b, us⟩⟩
  · obtain ⟨rfl, -⟩ := List.cons.inj hsplit
    cases ht
  · obtain ⟨rfl, hrest⟩ := List.cons.inj hsplit
    obtain ⟨rfl, -⟩ := List.cons.inj hrest
    exact hnone (by rw [ht]; decide) ws hws
  · have hmem : t ∈ [eof] := by
      rw [(show [eof] = us ++ t :: rest from (List.cons.inj (List.cons.inj hsplit).2).2)]
      simp
    rw [List.mem_singleton.mp hmem] at ht
    cases ht

end Program

end Scriptlet
