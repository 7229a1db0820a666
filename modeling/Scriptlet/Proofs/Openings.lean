import Scriptlet.Proofs.Phrases

namespace Scriptlet

namespace Phrase

def operandOpenings : List TokenKind :=
  [.number, .string, .keyword .trueWord, .keyword .falseWord, .keyword .nilWord, .identifier,
    .symbol .leftParen, .keyword .funWord]

def expressionOpenings : List TokenKind :=
  .keyword .notWord :: .symbol .minus :: operandOpenings

def statementOpenings : List TokenKind :=
  .keyword .ifWord :: .keyword .whileWord :: .keyword .returnWord :: .symbol .leftBrace ::
    expressionOpenings

def openings : Phrase → List TokenKind
  | .primary | .call | .target => operandOpenings
  | .unary | .operation _ | .expression | .arguments | .argumentRow => expressionOpenings
  | .definition _ _ => [.symbol .leftParen]
  | .statement _ => statementOpenings
  | .declaration _ | .declarations => .keyword .varWord :: statementOpenings

def declares : Phrase → Bool
  | .declaration _ | .declarations => true
  | _ => false

def nullable : Phrase → Bool
  | .arguments | .declarations => true
  | _ => false

end Phrase

theorem Terminator.kind_eq {next : Follow} {es : List Token} (h : Terminator next es) :
    ∀ t ∈ es, t.kind = .symbol .semicolon := by
  cases h with
  | semicolon ht => exact List.forall_mem_singleton.mpr ht
  | omitted => exact List.forall_mem_nil _

theorem NameRow.kind_mem {ts : List Token} {xs : List String} (h : NameRow ts xs) :
    ∀ t ∈ ts, t.kind ∈ [.identifier, .symbol .comma] := by
  induction h with
  | last ht => simp [ht]
  | more ht hc _ ih =>
    exact List.forall_mem_cons.mpr ⟨by simp [ht], List.forall_mem_cons.mpr ⟨by simp [hc], ih⟩⟩

theorem Parameters.kind_mem {ts : List Token} {xs : List String} (h : Parameters ts xs) :
    ∀ t ∈ ts, t.kind ∈ [.identifier, .symbol .comma] := by
  cases h with
  | none => exact List.forall_mem_nil _
  | row h _ => exact h.kind_mem

def FunctionsOpen (ts : List Token) : Prop :=
  ∀ t, ts[0]? = some t → t.kind = .keyword .funWord →
    ∃ u, ts[1]? = some u ∧ u.kind = .symbol .leftParen

namespace FunctionsOpen

theorem of_kind {t : Token} {k : TokenKind} (ts : List Token) (ht : t.kind = k)
    (hk : k ≠ .keyword .funWord) : FunctionsOpen (t :: ts) := by
  intro u hu hfun
  simp only [List.getElem?_cons_zero, Option.some.injEq] at hu
  rw [← hu, ht] at hfun
  exact absurd hfun hk

theorem append {ts : List Token} (us : List Token) (h : FunctionsOpen ts) (hts : ts ≠ []) :
    FunctionsOpen (ts ++ us) := by
  obtain ⟨t, ts, rfl⟩ := List.exists_cons_of_ne_nil hts
  intro t' ht' hfun
  obtain ⟨u, hu, hk⟩ := h t' (by simpa using ht') hfun
  refine ⟨u, ?_, hk⟩
  rw [List.getElem?_append_left (List.getElem?_eq_some_iff.mp hu).1, hu]

end FunctionsOpen

def OpensWith (kinds : List TokenKind) (ts : List Token) : Prop :=
  ∃ t us, ts = t :: us ∧ t.kind ∈ kinds

namespace OpensWith

variable {kinds kinds' : List TokenKind} {ts us : List Token}

theorem cons {t : Token} (h : t.kind ∈ kinds) : OpensWith kinds (t :: us) :=
  ⟨t, us, rfl, h⟩

theorem append (h : OpensWith kinds ts) : OpensWith kinds (ts ++ us) := by
  obtain ⟨t, vs, rfl, ht⟩ := h
  exact cons ht

theorem mono (h : OpensWith kinds ts) (hk : kinds ⊆ kinds') : OpensWith kinds' ts := by
  obtain ⟨t, vs, rfl, ht⟩ := h
  exact cons (hk ht)

theorem ne_nil (h : OpensWith kinds ts) : ts ≠ [] := by
  obtain ⟨t, vs, rfl, -⟩ := h
  exact List.cons_ne_nil t vs

end OpensWith

namespace Derives

variable {f : Bool} {ts : List Token}

theorem opensWith {phrase : Phrase} {tree : phrase.Tree} (h : Derives f phrase ts tree)
    (hphrase : phrase.nullable = false ∨ ts ≠ []) : OpensWith phrase.openings ts := by
  have operand {t : Token} {us : List Token} {k : TokenKind} (ht : t.kind = k)
      (hk : k ∈ Phrase.operandOpenings) : OpensWith Phrase.operandOpenings (t :: us) :=
    .cons (ht ▸ hk)
  have statement {t : Token} {us : List Token} {k : TokenKind} (ht : t.kind = k)
      (hk : k ∈ Phrase.statementOpenings) : OpensWith Phrase.statementOpenings (t :: us) :=
    .cons (ht ▸ hk)
  have declaration {t : Token} {us : List Token} {k : TokenKind} (ht : t.kind = k)
      (hk : k ∈ .keyword .varWord :: Phrase.statementOpenings) :
      OpensWith (.keyword .varWord :: Phrase.statementOpenings) (t :: us) := .cons (ht ▸ hk)
  induction h with
  | literal ht => exact ht.elim (operand · (by decide)) (operand · (by decide))
  | truth ht => exact operand ht (by decide)
  | falsity ht => exact operand ht (by decide)
  | nil ht => exact operand ht (by decide)
  | name ht => exact operand ht (by decide)
  | group ho _ _ _ => exact operand ho (by decide)
  | lambda ht _ _ => exact operand ht (by decide)
  | callee _ ih => exact ih (.inl rfl)
  | call _ _ _ _ ih _ =>
    rw [List.append_assoc]
    exact (ih (.inl rfl)).append
  | noArguments => exact absurd rfl (hphrase.resolve_left (by decide))
  | arguments _ ih => exact ih (.inl rfl)
  | lastArgument _ ih => exact ih (.inl rfl)
  | moreArguments _ _ _ ih _ => exact (ih (.inl rfl)).append
  | plain _ ih => exact (ih (.inl rfl)).mono (by decide)
  | unary hop _ _ => exact .cons (hop.elim (· ▸ by decide) (· ▸ by decide))
  | tightest _ ih => exact ih (.inl rfl)
  | operand _ ih => exact ih (.inl rfl)
  | binary _ _ _ ih _ => exact (ih (.inl rfl)).append
  | targetName ht => exact operand ht (by decide)
  | targetGroup ho _ _ _ => exact operand ho (by decide)
  | operation _ ih => exact ih (.inl rfl)
  | assign _ _ _ ih _ => exact ((ih (.inl rfl)).mono (by decide)).append
  | definition hpo _ _ _ _ _ _ => exact .cons (List.mem_singleton.mpr hpo)
  | expression _ _ ih =>
    exact ((ih (.inl rfl)).mono (show _ ⊆ Phrase.statementOpenings by decide)).append
  | ret ht _ => exact statement ht (by decide)
  | retValue ht _ _ _ => exact statement ht (by decide)
  | block ho _ _ _ => exact statement ho (by decide)
  | oneBranch hi _ _ _ _ _ _ => exact statement hi (by decide)
  | twoBranches hi _ _ _ _ _ _ _ _ => exact statement hi (by decide)
  | loop hw _ _ _ _ _ => exact statement hw (by decide)
  | statement _ ih => exact (ih (.inl rfl)).mono (List.subset_cons_self _ _)
  | declareVar hv _ _ _ _ _ => exact declaration hv (by decide)
  | declareFunction hk _ _ _ => exact declaration hk (by decide)
  | noDeclarations => exact absurd rfl (hphrase.resolve_left (by decide))
  | lastDeclaration _ ih => exact ih (.inl rfl)
  | moreDeclarations _ _ _ ih _ => exact (ih (.inl rfl)).append

theorem declarations_nil {ns : List Node} (h : Derives f .declarations [] ns) : ns = [] := by
  generalize hts : ([] : List Token) = ts at h
  cases h with
  | noDeclarations => rfl
  | lastDeclaration h => exact absurd hts.symm (h.opensWith (.inl rfl)).ne_nil
  | moreDeclarations h _ _ =>
    exact absurd (List.append_eq_nil_iff.mp hts.symm).1 (h.opensWith (.inl rfl)).ne_nil

theorem declarations_ne_nil {ns : List Node} (h : Derives f .declarations ts ns) (hts : ts ≠ []) :
    ns ≠ [] := by
  cases h with
  | noDeclarations => exact absurd rfl hts
  | lastDeclaration _ => exact List.cons_ne_nil _ _
  | moreDeclarations _ _ _ => exact List.cons_ne_nil _ _

theorem functionsOpen {phrase : Phrase} {tree : phrase.Tree} (h : Derives f phrase ts tree)
    (hphrase : phrase.declares = false) : FunctionsOpen ts := by
  induction h with
  | literal ht => exact ht.elim (.of_kind _ · (by decide)) (.of_kind _ · (by decide))
  | truth ht => exact .of_kind _ ht (by decide)
  | falsity ht => exact .of_kind _ ht (by decide)
  | nil ht => exact .of_kind _ ht (by decide)
  | name ht => exact .of_kind _ ht (by decide)
  | group ho _ _ _ => exact .of_kind _ ho (by decide)
  | lambda ht h _ =>
    obtain ⟨u, us, rfl, hu⟩ := h.opensWith (.inl rfl)
    exact fun _ _ _ => ⟨u, rfl, List.mem_singleton.mp hu⟩
  | callee _ ih => exact ih rfl
  | call h _ _ _ ih _ =>
    rw [List.append_assoc]
    exact (ih rfl).append _ (h.opensWith (.inl rfl)).ne_nil
  | noArguments => intro t ht; simp at ht
  | arguments _ ih => exact ih rfl
  | lastArgument _ ih => exact ih rfl
  | moreArguments h _ _ ih _ => exact (ih rfl).append _ (h.opensWith (.inl rfl)).ne_nil
  | plain _ ih => exact ih rfl
  | unary hop _ _ => exact hop.elim (.of_kind _ · (by decide)) (.of_kind _ · (by decide))
  | tightest _ ih => exact ih rfl
  | operand _ ih => exact ih rfl
  | binary h _ _ ih _ => exact (ih rfl).append _ (h.opensWith (.inl rfl)).ne_nil
  | targetName ht => exact .of_kind _ ht (by decide)
  | targetGroup ho _ _ _ => exact .of_kind _ ho (by decide)
  | operation _ ih => exact ih rfl
  | assign h _ _ ih _ => exact (ih rfl).append _ (h.opensWith (.inl rfl)).ne_nil
  | definition hpo _ _ _ _ _ _ => exact .of_kind _ hpo (by decide)
  | expression h _ ih => exact (ih rfl).append _ (h.opensWith (.inl rfl)).ne_nil
  | ret ht _ => exact .of_kind _ ht (by decide)
  | retValue ht _ _ _ => exact .of_kind _ ht (by decide)
  | block ho _ _ _ => exact .of_kind _ ho (by decide)
  | oneBranch hi _ _ _ _ _ _ => exact .of_kind _ hi (by decide)
  | twoBranches hi _ _ _ _ _ _ _ _ => exact .of_kind _ hi (by decide)
  | loop hw _ _ _ _ _ => exact .of_kind _ hw (by decide)
  | statement | declareVar | declareFunction | noDeclarations | lastDeclaration
    | moreDeclarations => cases hphrase

theorem target {phrase : Phrase} {tree : phrase.Tree} (h : Derives f phrase ts tree) :
    match phrase, tree with
    | .primary, .name pos x | .call, .name pos x | .unary, .name pos x
    | .operation _, .name pos x | .expression, .name pos x =>
      Derives f .target ts (.name pos x)
    | _, _ => True := by
  induction h with
  | name ht => exact .targetName ht
  | @group _ _ _ _ n ho _ hc ih =>
    cases n
    case name => exact .targetGroup ho ih hc
    all_goals trivial
  | @callee _ _ n _ ih => cases n <;> exact ih
  | @plain _ _ n _ ih => cases n <;> exact ih
  | @tightest _ _ n _ ih => cases n <;> exact ih
  | @operand _ _ _ _ n _ ih => cases n <;> exact ih
  | @operation _ _ n _ ih => cases n <;> exact ih
  | _ => trivial

end Derives

end Scriptlet
