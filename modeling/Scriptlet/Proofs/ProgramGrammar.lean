import Scriptlet.Proofs.ParserCompleteness

namespace Scriptlet

open Cursor Scriptlet.Parser

namespace Cursor

theorem Faces.advance_ne_error {c : Cursor} {ts : List Token} {e : Token} (h : c.Faces ts e)
    (err : ScanError) : c.advance ≠ .error err := by
  unfold Cursor.advance
  rw [h.error]
  cases c.rest <;> exact nofun

theorem Faces.current_mem {c : Cursor} {ts : List Token} {e : Token} (h : c.Faces ts e) :
    c.current ∈ ts ++ [e] := by
  cases ts with
  | nil => simp [h.current_nil]
  | cons t ts => simp [h.advance.1]

end Cursor

namespace Program

section

variable {ts : List Token} {eof : Token} {maxNesting : Int} {room : Nat} {c : Cursor}

def declarations (room : Nat) (maxNesting : Int) (length : Nat) (c : Cursor) :
    Except ParseError (List Node × Cursor) :=
  manyUntil [.endOfInput] (Rule.parse room .declaration) length []
    ⟨maxNesting, 0, false, length⟩ c

theorem ofTokens_eq {s : TokenStream} (hc : ofStream s = .ok c) :
    ofTokens room maxNesting s =
      (declarations room maxNesting (s.tokens.length + 1) c).map fun r => ⟨r.1⟩ := by
  unfold ofTokens
  rw [hc]
  change Except.bind (declarations room maxNesting (s.tokens.length + 1) c) _ = _
  cases declarations room maxNesting (s.tokens.length + 1) c <;> rfl

theorem ensures_declarations (room : Nat) (maxNesting : Int) (length : Nat) (c : Cursor) :
    Ensures (manyUntil [.endOfInput] (Rule.parse room .declaration) length [])
      ⟨maxNesting, 0, false, length⟩ c ⟨2, room - 5, length, []⟩ fun ns us d =>
        d.current.kind = .endOfInput ∧ Derives false .declarations us ns := by
  have hcovers : Allowance.Covers ⟨2, room - 5, length, []⟩
      (Rule.declaration.allowance room ⟨maxNesting, 0, false, length⟩) :=
    ⟨Nat.le_refl _, Int.le_refl _, Int.le_refl _, List.Subset.refl _⟩
  apply (Grammar.ensures_manyUntil (sound_parse room) (by decide) length [] (Int.le_refl _)
    hcovers).post
  rintro ns us d - ⟨hstop, ms, rfl, hms⟩
  exact ⟨by simpa using hstop, hms⟩

theorem passes_of_declarations {length : Nat} {ns : List Node} {d : Cursor}
    (h : declarations room maxNesting length c = .ok (ns, d)) :
    ∃ us, c.Passes us d ∧ d.current.kind = .endOfInput ∧ Derives false .declarations us ns := by
  have hensures := ensures_declarations room maxNesting length c
  unfold Ensures at hensures
  rw [declarations] at h
  rwa [h] at hensures

theorem reason_of_declarations {length : Nat} {e : ParseError}
    (h : declarations room maxNesting length c = .error e) :
    ∃ us d, c.Passes us d ∧ Reason maxNesting ⟨2, room - 5, length, []⟩ us d e := by
  have hensures := ensures_declarations room maxNesting length c
  unfold Ensures at hensures
  rw [declarations] at h
  rwa [h] at hensures

theorem declarations_of_ofTokens {s : TokenStream} {p : Program}
    (h : ofTokens room maxNesting s = .ok p) :
    ∃ c us d, ofStream s = .ok c ∧ c.Passes us d ∧ d.current.kind = .endOfInput ∧
      declarations room maxNesting (s.tokens.length + 1) c = .ok (p.statements, d) ∧
      Derives false .declarations us p.statements := by
  cases hc : ofStream s with
  | error e =>
    unfold ofTokens at h
    rw [hc] at h
    cases h
  | ok c =>
    rw [ofTokens_eq hc] at h
    cases hd : declarations room maxNesting (s.tokens.length + 1) c with
    | error e =>
      rw [hd] at h
      cases h
    | ok r =>
      rw [hd] at h
      obtain rfl := Except.ok.inj h
      obtain ⟨us, hpasses, hend, hderives⟩ := passes_of_declarations hd
      exact ⟨c, us, r.2, rfl, hpasses, hend, hd, hderives⟩

theorem exists_reason_of_ofTokens {s : TokenStream} {e : ParseError}
    (h : ofTokens room maxNesting s = .error e) :
    (∃ err, ofStream s = .error err ∧ e = .scan err) ∨
      ∃ c us d, ofStream s = .ok c ∧ c.Passes us d ∧
        Reason maxNesting ⟨2, room - 5, (s.tokens.length + 1 : Nat), []⟩ us d e := by
  cases hc : ofStream s with
  | error err =>
    unfold ofTokens at h
    rw [hc] at h
    exact .inl ⟨err, rfl, (Except.error.inj h).symm⟩
  | ok c =>
    rw [ofTokens_eq hc] at h
    cases hd : declarations room maxNesting (s.tokens.length + 1) c with
    | ok r =>
      rw [hd] at h
      cases h
    | error e' =>
      rw [hd] at h
      obtain rfl := Except.error.inj h
      obtain ⟨us, d, hpasses, hreason⟩ := reason_of_declarations hd
      exact .inr ⟨c, us, d, rfl, hpasses, hreason⟩

variable (hts : ∀ t ∈ ts, t.kind ≠ .endOfInput) (heof : eof.kind = .endOfInput)

include hts heof

theorem derives_of_declarations {length : Nat} {ns : List Node} {d : Cursor} (hc : c.Faces ts eof)
    (h : declarations room maxNesting length c = .ok (ns, d)) : Derives false .declarations ts ns := by
  obtain ⟨us, hp, hd, hns⟩ := passes_of_declarations h
  obtain ⟨vs, rfl, hfaces⟩ := hp.faces heof hc
  -- Every token in front of the end of the input has been taken.
  cases vs with
  | nil => rwa [List.append_nil]
  | cons t vs => exact absurd (hfaces.advance.1 ▸ hd) (hts t (by simp))

theorem declarations_of_derives {ns : List Node} (hnesting : 2 * ts.length + 2 ≤ maxNesting)
    (hroom : 5 * ts.length + 5 ≤ room) (hc : c.Faces ts eof) (h : Derives false .declarations ts ns) :
    ∃ d, declarations room maxNesting (ts.length + 2) c = .ok (ns, d) := by
  obtain ⟨d, hp, hd⟩ : ∃ d, c.Passes ts d ∧ d.Faces [] eof :=
    Faces.passes (by rwa [List.append_nil]) hts
  refine ⟨d, ?_⟩
  refine h.parsed ⟨maxNesting, 0, false, ts.length + 2⟩ room c d _ [] _ rfl ⟨?_, ?_, ?_⟩ hp (by omega)
    (by decide) ?_
  · simp only [Rule.depth]
    omega
  · simpa only [Rule.rank] using hroom
  · simp only
    omega
  · rw [hd.current_nil, heof]
    exact List.mem_singleton_self _

theorem fault_of_declarations {e : ParseError} (hnesting : 2 * ts.length + 2 ≤ maxNesting)
    (hroom : 5 * ts.length + 5 ≤ room) (hc : c.Faces ts eof)
    (h : declarations room maxNesting (ts.length + 2) c = .error e) :
    ∃ f, ∃ t ∈ ts ++ [eof], e = .fault f t.pos := by
  obtain ⟨us, d, hp, hreason⟩ := reason_of_declarations h
  obtain ⟨vs, rfl, hfaces⟩ := hp.faces heof hc
  simp only [List.length_append] at hnesting hroom
  cases e with
  | scan e => exact absurd hreason (hfaces.advance_ne_error e)
  | fault f pos =>
    obtain ⟨t, ht, rfl⟩ := hreason
    refine ⟨f, t, ?_, rfl⟩
    rw [List.nil_append, List.mem_append, List.mem_singleton] at ht
    rw [List.append_assoc, List.mem_append]
    rcases ht with ht | rfl
    · exact .inl ht
    · exact .inr hfaces.current_mem
  | nesting limit pos =>
    obtain ⟨-, -, hlt⟩ := hreason
    simp only at hlt
    omega
  | exhausted pos =>
    obtain ⟨-, hlt⟩ := hreason
    simp only [List.length_append] at hlt
    omega

theorem derives_unique {ns ms : List Node} (hns : Derives false .declarations ts ns)
    (hms : Derives false .declarations ts ms) : ns = ms := by
  obtain ⟨c, -, hc⟩ : ∃ c, ofStream ⟨ts ++ [eof], none⟩ = .ok c ∧ c.Faces ts eof :=
    ofStream_faces heof
  have hparse {ks : List Node} (h : Derives false .declarations ts ks) :
      ∃ d, declarations (5 * ts.length + 5) (2 * ts.length + 2) (ts.length + 2) c = .ok (ks, d) :=
    declarations_of_derives hts heof (Int.le_refl _) (Nat.le_refl _) hc h
  obtain ⟨d, hd⟩ := hparse hns
  obtain ⟨d', hd'⟩ := hparse hms
  rw [hd, Except.ok.injEq, Prod.mk.injEq] at hd'
  exact hd'.1

/-- The parser accepts what the grammar derives, as the tree that the grammar gives to it, and
nothing else: it faults at a token of anything else. No tokens stand for two programs. -/
theorem ofTokens_exact (hnesting : 2 * ts.length + 2 ≤ maxNesting)
    (hroom : 5 * ts.length + 5 ≤ room) :
    (∀ p, ofTokens room maxNesting ⟨ts ++ [eof], none⟩ = .ok p ↔
        Derives false .declarations ts p.statements) ∧
      ((¬∃ ns, Derives false .declarations ts ns) →
        ∃ f, ∃ t ∈ ts ++ [eof], ofTokens room maxNesting ⟨ts ++ [eof], none⟩ = .error (.fault f t.pos)) ∧
      ∀ ns ms, Derives false .declarations ts ns → Derives false .declarations ts ms → ns = ms := by
  obtain ⟨c, hstream, hc⟩ : ∃ c, ofStream ⟨ts ++ [eof], none⟩ = .ok c ∧ c.Faces ts eof :=
    ofStream_faces heof
  have hlength : (ts ++ [eof]).length + 1 = ts.length + 2 := by simp
  have hparse : ofTokens room maxNesting ⟨ts ++ [eof], none⟩ =
      (declarations room maxNesting (ts.length + 2) c).map fun r => ⟨r.1⟩ := by
    rw [ofTokens_eq hstream, hlength]
  refine ⟨fun p => ⟨fun h => ?_, fun h => ?_⟩, fun h => ?_, fun ns ms hns hms => ?_⟩
  · rw [hparse] at h
    cases hd : declarations room maxNesting (ts.length + 2) c with
    | error e => simp [hd, Except.map] at h
    | ok r =>
      simp only [hd, Except.map, Except.ok.injEq] at h
      subst h
      exact derives_of_declarations hts heof hc hd
  · obtain ⟨d, hd⟩ := declarations_of_derives hts heof hnesting hroom hc h
    rw [hparse, hd]
    rfl
  · cases hd : declarations room maxNesting (ts.length + 2) c with
    | error e =>
      obtain ⟨f, t, ht, rfl⟩ := fault_of_declarations hts heof hnesting hroom hc hd
      refine ⟨f, t, ht, ?_⟩
      rw [hparse, hd]
      rfl
    | ok r => exact absurd ⟨r.1, derives_of_declarations hts heof hc hd⟩ h
  · obtain ⟨d, hd⟩ := declarations_of_derives hts heof hnesting hroom hc hns
    obtain ⟨d', hd'⟩ := declarations_of_derives hts heof hnesting hroom hc hms
    rw [hd, Except.ok.injEq, Prod.mk.injEq] at hd'
    exact hd'.1

end

/-- The tokens of `{ f(x) + y; }`, each at the place that is given for it. -/
def blockOfCall (place : Nat → Position) : List Token :=
  [⟨.symbol .leftBrace, "\x7b", place 0, 0, none⟩, ⟨.identifier, "f", place 1, 1, none⟩,
    ⟨.symbol .leftParen, "(", place 2, 2, none⟩, ⟨.identifier, "x", place 3, 3, none⟩,
    ⟨.symbol .rightParen, ")", place 4, 4, none⟩, ⟨.symbol .plus, "+", place 5, 5, none⟩,
    ⟨.identifier, "y", place 6, 6, none⟩, ⟨.symbol .semicolon, ";", place 7, 7, none⟩,
    ⟨.symbol .rightBrace, "\x7d", place 8, 8, none⟩]

def blockOfCallTree (place : Nat → Position) : Program :=
  ⟨[.block (some (place 0)) [.expression (some (place 5)) (.binary (some (place 5)) "+"
    (.call (some (place 2)) (.name (some (place 1)) "f") [.name (some (place 3)) "x"])
    (.name (some (place 6)) "y"))]]⟩

set_option maxRecDepth 4000 in
theorem ofTokens_blockOfCall (place : Nat → Position) (pos : Position) (offset : Nat) :
    ofTokens 50 20 ⟨blockOfCall place ++ [.endOfInput pos offset], none⟩ = .ok (blockOfCallTree place) :=
  rfl

theorem ofTokens_exact_blockOfCall :
    let place (i : Nat) : Position := ⟨1, i + 1⟩
    (∀ t ∈ blockOfCall place, t.kind ≠ .endOfInput) ∧
      ofTokens 50 20 ⟨blockOfCall place ++ [.endOfInput ⟨1, 10⟩ 9], none⟩ =
        .ok (blockOfCallTree place) ∧
      Derives false .declarations (blockOfCall place) (blockOfCallTree place).statements := by
  intro place
  have hts : ∀ t ∈ blockOfCall place, t.kind ≠ .endOfInput := by
    simp [blockOfCall]
  have hp := ofTokens_blockOfCall place ⟨1, 10⟩ 9
  have heof : (Token.endOfInput ⟨1, 10⟩ 9).kind = .endOfInput := rfl
  have hexact : ∀ p, ofTokens 50 20 ⟨blockOfCall place ++ [.endOfInput ⟨1, 10⟩ 9], none⟩ = .ok p ↔
      Derives false .declarations (blockOfCall place) p.statements :=
    (ofTokens_exact hts heof (by decide) (by decide)).1
  exact ⟨hts, hp, (hexact _).mp hp⟩

end Program

end Scriptlet
