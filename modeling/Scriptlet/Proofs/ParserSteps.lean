import Scriptlet.Proofs.ParserSoundness

namespace Scriptlet

open Cursor Scriptlet.Parser

structure Rule.Fits (rule : Rule) (room : Nat) (s : Surroundings) (n : Nat) : Prop where
  nesting : s.nesting + 2 * n + rule.depth ≤ s.maxNesting
  room : 5 * n + rule.rank ≤ room
  turns : n < s.length

namespace Rule.Fits

variable {rule : Rule} {room n m : Nat} {s : Surroundings}

theorem mono (h : rule.Fits room s n) (hm : m ≤ n) : rule.Fits room s m := by
  obtain ⟨hn, hr, ht⟩ := h
  constructor <;> omega

theorem behind (h : Rule.unary.Fits (room + 1) s n) (hm : m < n) (rule : Rule) :
    rule.Fits room s m := by
  obtain ⟨hn, hr, ht⟩ := h
  simp only [Rule.depth, Rule.rank] at hn hr
  refine ⟨?_, ?_, by omega⟩ <;> cases rule <;> simp only [Rule.depth, Rule.rank] <;> omega

theorem inside (h : Rule.statement.Fits (room + 1) s n) (hm : m < n) (rule : Rule) :
    rule.Fits room { s with nesting := s.nesting + 1 } m := by
  obtain ⟨hn, hr, ht⟩ := h
  simp only [Rule.depth, Rule.rank] at hn hr
  refine ⟨?_, ?_, Nat.lt_trans hm ht⟩ <;> cases rule <;> simp only [Rule.depth, Rule.rank] <;> omega

theorem exists_room (h : rule.Fits room s n) : ∃ r, room = r + 1 := by
  have hr := h.room
  have hp : 0 < rule.rank := by cases rule <;> decide
  exact ⟨room - 1, by omega⟩

end Rule.Fits

namespace Phrase

def extensions : Phrase → List TokenKind
  | .call | .unary | .target => [.symbol .leftParen]
  | .operation ls => .symbol .leftParen :: ls.flatMap Level.operators
  | .expression => .symbol .equal :: .symbol .leftParen :: Level.ladder.flatMap Level.operators
  | _ => []

end Phrase

section

variable {α β : Type} {s : Surroundings} {c d : Cursor} {t : Token}

theorem Parser.pure_apply (a : α) : (pure a : Parser α) s c = .ok (a, c) := rfl

theorem Parser.take_of (h : c.Passes [t] d) : take s c = .ok (t, d) := by
  obtain ⟨rfl, -, c', hc, rfl⟩ := h
  rw [take_apply, hc]

theorem Parser.currentKind_apply : currentKind s c = .ok (c.current.kind, c) := rfl

theorem Parser.nextKind_apply : nextKind s c = .ok (c.next.kind, c) := rfl

theorem Parser.read_apply : (read : Parser Surroundings) s c = .ok (s, c) := rfl

theorem Parser.inFunction_apply (p : Parser α) :
    inFunction p s c = p { s with inFunction := true } c := rfl

theorem Parser.current_apply : current s c = .ok (c.current, c) := rfl

theorem Parser.require_of {kind : TokenKind} {slot : Slot} (h : c.Passes [t] d)
    (ht : t.kind = kind) : require kind slot s c = .ok (t, d) := by
  obtain rfl : c.current = t := h.1
  change (if c.current.kind = kind then take else fault _ _ : Parser Token) s c = _
  rw [if_pos ht, take_of h]

theorem Parser.accept_of {kind : TokenKind} (h : c.Passes [t] d) (ht : t.kind = kind) :
    accept kind s c = .ok (true, d) := by
  obtain rfl : c.current = t := h.1
  change (if c.current.kind = kind then _ else _ : Parser Bool) s c = _
  rw [if_pos ht, bind_apply, take_of h]
  rfl

theorem Parser.accept_of_ne {kind : TokenKind} (h : c.current.kind ≠ kind) :
    accept kind s c = .ok (false, c) := by
  change (if c.current.kind = kind then _ else _ : Parser Bool) s c = _
  rw [if_neg h]
  rfl

theorem Parser.nested_of {p : Parser α} (h : s.nesting < s.maxNesting) :
    nested p s c = p { s with nesting := s.nesting + 1 } c := by
  rw [nested_apply, if_neg (by omega)]

end

namespace Follow

theorem of_eq_ending {kind : TokenKind} :
    of kind = ending ↔ kind = .symbol .rightBrace ∨ kind = .endOfInput := by
  unfold of
  constructor
  · intro h
    by_cases hk : kind = .symbol .rightBrace ∨ kind = .endOfInput
    · exact hk
    · rw [if_neg hk] at h
      split at h <;> cases h
  · intro h
    rw [if_pos h]

theorem of_eq_otherBranch {kind : TokenKind} : of kind = otherBranch ↔ kind = .keyword .elseWord := by
  unfold of
  constructor
  · intro h
    split at h
    · cases h
    · split at h
      · assumption
      · cases h
  · rintro rfl
    rfl

end Follow

namespace Grammar

variable {s : Surroundings} {c d : Cursor} {room : Nat}

theorem endStatement_of {slot : Slot} {next : Follow} {es : List Token} (he : Terminator next es)
    (hp : c.Passes es d) (hd : Follow.of d.current.kind = next) :
    endStatement slot s c = .ok ((), d) := by
  unfold endStatement
  rw [bind_apply, currentKind_apply]
  cases he with
  | semicolon ht =>
    have hc : c.current.kind = .symbol .semicolon := hp.1 ▸ ht
    simp [hc, bind_apply, require_of hp ht, pure_apply]
  | omitted =>
    rw [passes_nil] at hp
    subst hp
    simp [Follow.of_eq_ending.mp hd, pure_apply]

theorem kind_of_terminator {next : Follow} {es : List Token} (he : Terminator next es)
    (hp : c.Passes es d) (hd : Follow.of d.current.kind = next) :
    c.current.kind ∈ [.symbol .semicolon, .symbol .rightBrace, .endOfInput] := by
  cases he with
  | semicolon ht => simp [hp.1, ht]
  | omitted =>
    rw [passes_nil] at hp
    subst hp
    rcases Follow.of_eq_ending.mp hd with h | h <;> simp [h]

theorem parametersFrom_of {ts : List Token} {xs : List String} (h : NameRow ts xs)
    (params : List String) (k : Nat) (hparams : (params ++ xs).Nodup) (hk : ts.length ≤ k)
    (hp : c.Passes ts d) (hd : d.current.kind ≠ .symbol .comma) :
    parametersFrom k params s c = .ok (params ++ xs, d) := by
  induction h generalizing params k c with
  | @last t ht =>
    obtain ⟨k, rfl⟩ : ∃ j, k = j + 1 := ⟨k - 1, by simp at hk; omega⟩
    have hx : t.text ∉ params := by
      simp only [List.nodup_append, List.mem_singleton] at hparams
      exact fun h => hparams.2.2 _ h _ rfl rfl
    simp [parametersFrom, parameter, bind_apply, require_of hp ht, hx, accept_of_ne hd, pure_apply]
  | @more t comma ts xs ht hc _ ih =>
    obtain ⟨k, rfl⟩ : ∃ j, k = j + 1 := ⟨k - 1, by simp at hk; omega⟩
    obtain ⟨c₁, hp₁, hp⟩ := hp.cons_inv
    obtain ⟨c₂, hp₂, hp⟩ := hp.cons_inv
    have hx : t.text ∉ params := by
      simp only [List.nodup_append, List.mem_cons] at hparams
      exact fun h => hparams.2.2 _ h _ (.inl rfl) rfl
    have htail := ih (params ++ [t.text]) k (by simpa using hparams)
      (by simp only [List.length_cons] at hk; omega) hp
    simp [parametersFrom, parameter, bind_apply, require_of hp₁ ht, hx, accept_of hp₂ hc,
      pure_apply, htail]

theorem parameters_of {ts : List Token} {xs : List String} {o t : Token}
    (ho : o.kind = .symbol .leftParen) (h : Parameters ts xs) (ht : t.kind = .symbol .rightParen)
    (hs : ts.length ≤ s.length) (hp : c.Passes (o :: ts ++ [t]) d) :
    parameters s c = .ok (xs, d) := by
  obtain ⟨c₂, hp, hp₃⟩ := passes_append.mp hp
  obtain ⟨c₁, hp₁, hp₂⟩ := hp.cons_inv
  have hc₂ : c₂.current.kind = .symbol .rightParen := hp₃.1 ▸ ht
  have hlist : parameterList s c₁ = .ok (xs, c₂) := by
    unfold parameterList
    rw [bind_apply, currentKind_apply]
    cases h with
    | none =>
      rw [passes_nil] at hp₂
      subst hp₂
      simp [hc₂, pure_apply]
    | row h hxs =>
      have hc₁ : c₁.current.kind ≠ .symbol .rightParen := by
        cases h with
        | last ht => rw [hp₂.1, ht]; decide
        | more ht _ _ => rw [hp₂.1, ht]; decide
      have hrow := parametersFrom_of (s := s) h [] s.length hxs hs hp₂ (by rw [hc₂]; decide)
      simp only [hc₁, if_false]
      exact hrow
  simp only [parameters, bind_apply, require_of hp₁ ho, hlist, require_of hp₃ ht, pure_apply]

theorem literal_of {t : Token} (value : Token → Value) (hp : c.Passes [t] d) :
    literal value s c = .ok (.literal t.pos (value t), d) := by
  simp only [literal, bind_apply, take_of hp, pure_apply]

theorem group_of {recur : Rule → Parser Node} {o t : Token} {ts : List Token} {n : Node}
    (hp : c.Passes (o :: ts ++ [t]) d) (ht : t.kind = .symbol .rightParen)
    (h : ∀ c d, c.Passes ts d → d.current.kind = .symbol .rightParen →
      recur .expression s c = .ok (n, d)) : group recur s c = .ok (n, d) := by
  obtain ⟨c₂, hp, hp₃⟩ := passes_append.mp hp
  obtain ⟨c₁, hp₁, hp₂⟩ := hp.cons_inv
  have hn := h c₁ c₂ hp₂ (hp₃.1 ▸ ht)
  simp only [group, bind_apply, take_of hp₁, hn, require_of hp₃ ht, pure_apply]

section

variable {recur : Rule → Parser Node}

theorem primary_eq_group (hc : c.current.kind = .symbol .leftParen) :
    primary recur s c = group recur s c := by
  unfold primary
  rw [bind_apply, current_apply]
  simp only [hc]

theorem primary_of_name {t : Token} (ht : t.kind = .identifier) (hp : c.Passes [t] d) :
    primary recur s c = .ok (.name t.pos t.text, d) := by
  have hc : c.current.kind = .identifier := hp.1 ▸ ht
  unfold primary
  rw [bind_apply, current_apply]
  simp only [hc, bind_apply, take_of hp, pure_apply]

theorem primary_of_literal {t : Token} (ht : t.kind = .number ∨ t.kind = .string)
    (hp : c.Passes [t] d) : primary recur s c = .ok (.literal t.pos (literalValue t), d) := by
  have hc : c.current.kind = .number ∨ c.current.kind = .string := hp.1 ▸ ht
  unfold primary
  rw [bind_apply, current_apply]
  rcases hc with hc | hc <;> simp only [hc, literal_of _ hp]

theorem primary_of_word {t : Token} {w : Keyword} {v : Value} (ht : t.kind = .keyword w)
    (hw : (w, v) ∈ [(.trueWord, .bool true), (.falseWord, .bool false), (.nilWord, .nil)])
    (hp : c.Passes [t] d) : primary recur s c = .ok (.literal t.pos v, d) := by
  have hc : c.current.kind = .keyword w := hp.1 ▸ ht
  unfold primary
  rw [bind_apply, current_apply]
  simp only [List.mem_cons, Prod.mk.injEq, List.not_mem_nil, or_false] at hw
  rcases hw with ⟨rfl, rfl⟩ | ⟨rfl, rfl⟩ | ⟨rfl, rfl⟩ <;> simp only [hc, literal_of _ hp]

theorem primary_of_lambda {t : Token} {e : Definition} {c' : Cursor}
    (ht : t.kind = .keyword .funWord) (hp : c.Passes [t] c')
    (he : definition recur t.pos none s c' = .ok (e, d)) :
    primary recur s c = .ok (.function e, d) := by
  have hc : c.current.kind = .keyword .funWord := hp.1 ▸ ht
  unfold primary
  rw [bind_apply, current_apply]
  simp only [hc, bind_apply, take_of hp, he, pure_apply]

end

theorem unary_of {recur : Rule → Parser Node} (hc : c.current.kind ∈ Phrase.operandOpenings) :
    unary recur s c = (primary recur >>= callsFrom recur s.length) s c := by
  have hneg : ¬(c.current.kind = .keyword .notWord ∨ c.current.kind = .symbol .minus) := by
    revert hc
    generalize c.current.kind = k
    revert k
    decide
  unfold unary
  rw [bind_apply, currentKind_apply]
  simp only [hneg, if_false]
  rfl

theorem callsFrom_of {recur : Rule → Parser Node} {k : Nat} {n : Node} (hk : 0 < k)
    (hc : c.current.kind ≠ .symbol .leftParen) : callsFrom recur k n s c = .ok (n, c) := by
  obtain ⟨k, rfl⟩ : ∃ j, k = j + 1 := ⟨k - 1, by omega⟩
  unfold callsFrom
  rw [bind_apply, currentKind_apply]
  simp only [hc, if_false, pure_apply]

theorem callsFrom_succ {recur : Rule → Parser Node} {k : Nat} {n : Node} {ns : List Node}
    {o t : Token} {c₁ c₂ : Cursor} (hp₁ : c.Passes [o] c₁) (ho : o.kind = .symbol .leftParen)
    (hns : arguments recur s c₁ = .ok (ns, c₂)) (hp₂ : c₂.Passes [t] d)
    (ht : t.kind = .symbol .rightParen) :
    callsFrom recur (k + 1) n s c = callsFrom recur k (.call o.pos n ns) s d := by
  have hc : c.current.kind = .symbol .leftParen := hp₁.1 ▸ ho
  rw [callsFrom, bind_apply, currentKind_apply]
  simp only [hc, if_true, bind_apply, take_of hp₁, hns, require_of hp₂ ht]

section

variable {item : Parser Node} {items : List Node} {k : Nat}

theorem manyCommas_of (hk : 0 < k) (hc : c.current.kind ≠ .symbol .comma) :
    manyCommas item k items s c = .ok (items.reverse, c) := by
  obtain ⟨k, rfl⟩ : ∃ j, k = j + 1 := ⟨k - 1, by omega⟩
  simp only [manyCommas, bind_apply, accept_of_ne hc, pure_apply, Bool.false_eq_true, if_false]

theorem manyCommas_succ {t : Token} (hp : c.Passes [t] d) (ht : t.kind = .symbol .comma) :
    manyCommas item (k + 1) items s c = (do manyCommas item k ((← item) :: items)) s d := by
  rw [manyCommas, bind_apply, accept_of hp ht]
  rfl

theorem manyUntil_of {stops : List TokenKind} (hk : 0 < k) (hc : c.current.kind ∈ stops) :
    manyUntil stops item k items s c = .ok (items.reverse, c) := by
  obtain ⟨k, rfl⟩ : ∃ j, k = j + 1 := ⟨k - 1, by omega⟩
  rw [manyUntil, bind_apply, currentKind_apply]
  simp only [List.contains_iff_mem.mpr hc, if_true, pure_apply]

theorem manyUntil_succ {stops : List TokenKind} {n : Node} (hc : c.current.kind ∉ stops)
    (hn : item s c = .ok (n, d)) :
    manyUntil stops item (k + 1) items s c = manyUntil stops item k (n :: items) s d := by
  have hnot : stops.contains c.current.kind = false := by simpa using hc
  rw [manyUntil, bind_apply, currentKind_apply]
  simp only [hnot, Bool.false_eq_true, if_false, bind_apply, hn]

end

theorem chainFrom_of {ops : List TokenKind} {operand : Parser Node} {k : Nat} {n : Node}
    (hk : 0 < k) (hc : c.current.kind ∉ ops) : chainFrom ops operand k n s c = .ok (n, c) := by
  obtain ⟨k, rfl⟩ : ∃ j, k = j + 1 := ⟨k - 1, by omega⟩
  unfold chainFrom
  rw [bind_apply, currentKind_apply]
  have hnot : ops.contains c.current.kind = false := by simpa using hc
  simp only [hnot, Bool.false_eq_true, if_false, pure_apply]

theorem chainFrom_succ {ops : List TokenKind} {operand : Parser Node} {k : Nat} {a b : Node}
    {op : Token} {c₁ : Cursor} (hp : c.Passes [op] c₁) (hop : op.kind ∈ ops)
    (hb : operand s c₁ = .ok (b, d)) :
    chainFrom ops operand (k + 1) a s c =
      chainFrom ops operand k (.binary op.pos op.text a b) s d := by
  have hc : ops.contains c.current.kind = true := List.contains_iff_mem.mpr (hp.1 ▸ hop)
  rw [chainFrom, bind_apply, currentKind_apply]
  simp only [hc, if_true, bind_apply, take_of hp, hb]

theorem chain_apply {ops : List TokenKind} {operand : Parser Node} :
    chain ops operand s c = (operand >>= chainFrom ops operand s.length) s c := rfl

def operand (recur : Rule → Parser Node) (ls : List Level) : Parser Node :=
  (ls.map Level.operators).foldr chain (recur .unary)

theorem operand_of_unary {recur : Rule → Parser Node} {n : Node} (hs : 0 < s.length)
    (h : recur .unary s c = .ok (n, d)) (ls : List Level)
    (hd : d.current.kind ∉ (Phrase.operation ls).extensions) :
    operand recur ls s c = .ok (n, d) := by
  induction ls with
  | nil => exact h
  | cons l ls ih =>
    simp only [Phrase.extensions, List.flatMap_cons, List.mem_cons, List.mem_append, not_or] at hd ih
    change chain l.operators (operand recur ls) s c = _
    rw [chain_apply, bind_apply, ih ⟨hd.1, hd.2.2⟩]
    exact chainFrom_of hs hd.2.1

theorem operators_disjoint {l : Level} {ls : List Level} (hls : l :: ls <:+ Level.ladder)
    {k : TokenKind} (hk : k ∈ l.operators) : k ∉ (Phrase.operation ls).extensions := by
  have hall : ∀ i < 7, ∀ l ∈ (Level.ladder.drop i).head?, ∀ k ∈ l.operators,
      k ∉ (Phrase.operation (Level.ladder.drop i).tail).extensions := by decide
  have hdrop := List.suffix_iff_eq_drop.mp hls
  have h := hall (Level.ladder.length - (l :: ls).length) (by simp [Level.ladder]; omega)
  rw [← hdrop] at h
  exact h l rfl k hk

theorem assignment_of {recur : Rule → Parser Node} {n : Node}
    (h : operand recur Level.ladder s c = .ok (n, d))
    (hd : d.current.kind ∉ Phrase.expression.extensions) :
    assignment recur s c = .ok (n, d) := by
  have heq : d.current.kind ≠ .symbol .equal := fun h => hd (by rw [h]; decide)
  change (operand recur Level.ladder >>= _) s c = _
  rw [bind_apply, h]
  change (if d.current.kind = .symbol .equal then _ else _ : Parser Node) s d = _
  rw [if_neg heq]
  rfl

theorem assignment_of_target {recur : Rule → Parser Node} {pos : Option Position} {x : String}
    {n : Node} {eq : Token} {c₁ c₂ : Cursor}
    (h : operand recur Level.ladder s c = .ok (.name pos x, c₁)) (hp : c₁.Passes [eq] c₂)
    (heq : eq.kind = .symbol .equal) (hn : recur .assignment s c₂ = .ok (n, d)) :
    assignment recur s c = .ok (.assign pos x n, d) := by
  have hc₁ : c₁.current.kind = .symbol .equal := hp.1 ▸ heq
  change (operand recur Level.ladder >>= _) s c = _
  rw [bind_apply, h]
  change (if c₁.current.kind = .symbol .equal then _ else _ : Parser Node) s c₁ = _
  rw [if_pos hc₁]
  simp only [bind_apply, take_of hp, hn, pure_apply]

section

variable {recur : Rule → Parser Node}

theorem body_of {o t : Token} {ts : List Token} {ns : List Node} (ho : o.kind = .symbol .leftBrace)
    (hs : s.nesting < s.maxNesting) (hp : c.Passes (o :: ts ++ [t]) d)
    (ht : t.kind = .symbol .rightBrace)
    (h : ∀ c d, c.Passes ts d → d.current.kind = .symbol .rightBrace →
      manyUntil [.symbol .rightBrace, .endOfInput] (recur .declaration) s.length []
        { s with nesting := s.nesting + 1 } c = .ok (ns, d)) :
    body recur s c = .ok ((o.pos, ns), d) := by
  obtain ⟨c₂, hp, hp₃⟩ := passes_append.mp hp
  obtain ⟨c₁, hp₁, hp₂⟩ := hp.cons_inv
  have hns := h c₁ c₂ hp₂ (hp₃.1 ▸ ht)
  simp only [body, bind_apply, require_of hp₁ ho, nested_of hs, read_apply, hns, require_of hp₃ ht,
    pure_apply]

theorem statement_of_expression (hc : c.current.kind ∈ Phrase.expressionOpenings) :
    statement recur s c = expressionStatement recur s c := by
  rw [statement, bind_apply, currentKind_apply]
  have hall : ∀ k ∈ Phrase.expressionOpenings, k ≠ .keyword .ifWord ∧ k ≠ .keyword .whileWord ∧
      k ≠ .keyword .returnWord ∧ k ≠ .symbol .leftBrace := by decide
  obtain ⟨hif, hwhile, hreturn, hbrace⟩ := hall _ hc
  simp only

theorem returnValue_of_expression (hc : c.current.kind ∈ Phrase.expressionOpenings) :
    returnValue recur s c = (some <$> recur .expression) s c := by
  have hall : ∀ k ∈ Phrase.expressionOpenings,
      ¬(k = .symbol .semicolon ∨ k = .symbol .rightBrace ∨ k = .endOfInput) := by decide
  rw [returnValue, bind_apply, currentKind_apply]
  simp only [hall _ hc, if_false]

theorem map_some_of {p : Parser Node} {n : Node} (h : p s c = .ok (n, d)) :
    (some <$> p) s c = .ok (some n, d) := by
  change (p >>= fun n => pure (some n)) s c = _
  rw [bind_apply, h]
  rfl

theorem returnStatement_of {t : Token} {v : Option Node} {next : Follow} {es : List Token}
    {c₁ c₂ : Cursor} (hf : s.inFunction = true) (hp₁ : c.Passes [t] c₁)
    (hv : returnValue recur s c₁ = .ok (v, c₂)) (he : Terminator next es) (hp₂ : c₂.Passes es d)
    (hd : Follow.of d.current.kind = next) :
    returnStatement recur s c = .ok (.ret t.pos v, d) := by
  rw [returnStatement, bind_apply, read_apply]
  simp only
  rw [if_pos hf]
  simp only [bind_apply, take_of hp₁, hv, endStatement_of he hp₂ hd, pure_apply]

theorem declaration_of_statement (hvar : c.current.kind ≠ .keyword .varWord)
    (hfun : c.current.kind = .keyword .funWord → c.next.kind ≠ .identifier) :
    declaration recur s c = recur .statement s c := by
  have hnot : ¬(c.current.kind = .keyword .funWord ∧ c.next.kind = .identifier) :=
    fun h => hfun h.1 h.2
  rw [declaration, bind_apply, currentKind_apply]
  simp only [bind_apply, nextKind_apply, hnot, hvar, if_false]

end

theorem parse_assignment (room : Nat) :
    Rule.parse (room + 1) .assignment s c = assignment (Rule.parse room) s c := rfl

theorem parse_unary (room : Nat) :
    Rule.parse (room + 1) .unary s c = unary (Rule.parse room) s c := rfl

theorem parse_expression {room : Nat} (hs : s.nesting < s.maxNesting) :
    Rule.parse (room + 1) .expression s c =
      Rule.parse room .assignment { s with nesting := s.nesting + 1 } c :=
  nested_of hs

theorem parse_statement {room : Nat} (hs : s.nesting < s.maxNesting) :
    Rule.parse (room + 1) .statement s c =
      statement (Rule.parse room) { s with nesting := s.nesting + 1 } c :=
  nested_of hs

theorem parse_declaration (room : Nat) :
    Rule.parse (room + 1) .declaration s c = declaration (Rule.parse room) s c := rfl

end Grammar

end Scriptlet
