import Mathlib.Data.Fintype.EquivFin
import Scriptlet.Proofs.Openings

namespace Scriptlet

def Forms (f : Bool) (phrase : Phrase) (ts : List Token) : Prop :=
  ∃ tree, Derives f phrase ts tree

def Lengthens (P Q : List Token → Prop) (ts : List Token) : Prop :=
  ∀ us, P us → Q (us ++ ts)

/-- The tokens `us` go on to tokens of which `D` holds. So they do behind a token of any kind that the
fault `g` names. -/
structure Mendable (D : List Token → Prop) (g : SyntaxFault) (us : List Token) : Prop where
  viable : ∃ ws, D (us ++ ws)
  expected : ∀ k ∈ g.expected, ∃ u ws, u.kind = k ∧ D (us ++ u :: ws)

namespace Mendable

variable {D D' : List Token → Prop} {g : SyntaxFault} {us vs : List Token}

theorem behind (h : Mendable D g vs) (hD : ∀ xs, D xs → ∃ ys, D' (us ++ xs ++ ys)) :
    Mendable D' g (us ++ vs) := by
  constructor
  · obtain ⟨ws, hws⟩ := h.viable
    obtain ⟨ys, hys⟩ := hD _ hws
    exact ⟨ws ++ ys, by simpa using hys⟩
  · intro k hk
    obtain ⟨u, ws, hu, hws⟩ := h.expected k hk
    obtain ⟨ys, hys⟩ := hD _ hws
    exact ⟨u, ws ++ ys, hu, by simpa using hys⟩

theorem mono (h : Mendable D g us) (hD : ∀ xs, D xs → ∃ ys, D' (xs ++ ys)) : Mendable D' g us :=
  show Mendable D' g ([] ++ us) from h.behind hD

theorem cons {t : Token} (h : Mendable D g us) (hD : ∀ xs, D xs → ∃ ys, D' (t :: xs ++ ys)) :
    Mendable D' g (t :: us) :=
  show Mendable D' g ([t] ++ us) from h.behind hD

theorem missing {kind : TokenKind} {slot : Slot} {t : Token}
    (h : ∃ u ws, u.kind = kind ∧ D (us ++ u :: ws)) : Mendable D (.missing kind slot t) us := by
  obtain ⟨u, ws, hu, hws⟩ := h
  refine ⟨⟨u :: ws, hws⟩, fun k hk => ?_⟩
  obtain rfl := List.mem_singleton.mp hk
  exact ⟨u, ws, hu, hws⟩

theorem of_viable (hg : g.expected = []) (h : ∃ ws, D (us ++ ws)) : Mendable D g us := by
  refine ⟨h, fun k hk => ?_⟩
  rw [hg] at hk
  exact absurd hk List.not_mem_nil

end Mendable

def Token.bare (kind : TokenKind) : Token :=
  ⟨kind, "", .start, 0, none⟩

def Token.named (x : String) : Token :=
  ⟨.identifier, x, .start, 0, none⟩

theorem Terminator.follow {a b : Follow} {es : List Token} (h : Terminator a es)
    (hab : a = .otherBranch ∨ b = .ending) : Terminator b es := by
  cases h with
  | semicolon ht => exact .semicolon ht
  | omitted => exact hab.resolve_left (by decide) ▸ .omitted

theorem Terminator.another {next : Follow} {es : List Token} (h : Terminator next es) :
    Terminator .another es ∨ ∀ u : Token, u.kind = .symbol .semicolon →
      Terminator .another (es ++ [u]) := by
  cases h with
  | semicolon ht => exact .inl (.semicolon ht)
  | omitted => exact .inr fun _ hu => .semicolon hu

namespace Derives

variable {f : Bool} {ts us : List Token}

theorem follow {phrase : Phrase} {tree : phrase.Tree} (h : Derives f phrase ts tree) :
    match phrase, tree with
    | .statement a, n => ∀ b, a = .otherBranch ∨ b = .ending → Derives f (.statement b) ts n
    | .declaration a, n => ∀ b, a = .otherBranch ∨ b = .ending → Derives f (.declaration b) ts n
    | _, _ => True := by
  induction h with
  | expression h he => exact fun _ hb => .expression h (he.follow hb)
  | ret ht he => exact fun _ hb => .ret ht (he.follow hb)
  | retValue ht h he => exact fun _ hb => .retValue ht h (he.follow hb)
  | block ho h hc => exact fun _ _ => .block ho h hc
  | oneBranch hi hc ht _ hnext _ ih =>
    refine fun b hb => .oneBranch hi hc ht (ih b hb) ?_
    rw [hb.resolve_left hnext]
    decide
  | twoBranches hi hc ht hn he _ _ _ ih => exact fun b hb => .twoBranches hi hc ht hn he (ih b hb)
  | loop hw hc hd _ _ ih => exact fun b hb => .loop hw hc hd (ih b hb)
  | statement _ ih => exact fun b hb => .statement (ih b hb)
  | declareVar hv hx heq h he => exact fun _ hb => .declareVar hv hx heq h (he.follow hb)
  | declareFunction hk hx h => exact fun _ _ => .declareFunction hk hx h
  | _ => trivial

theorem another {phrase : Phrase} {tree : phrase.Tree} (h : Derives f phrase ts tree) :
    match phrase, tree with
    | .statement _, n => Derives f (.statement .another) ts n ∨
      ∀ u : Token, u.kind = .symbol .semicolon → Derives f (.statement .another) (ts ++ [u]) n
    | .declaration _, n => Derives f (.declaration .another) ts n ∨
      ∀ u : Token, u.kind = .symbol .semicolon → Derives f (.declaration .another) (ts ++ [u]) n
    | _, _ => True := by
  induction h with
  | expression h he =>
    refine he.another.imp (.expression h) fun hmore u hu => ?_
    simpa using Derives.expression h (hmore u hu)
  | ret ht he => exact he.another.imp (.ret ht) fun hmore u hu => .ret ht (hmore u hu)
  | retValue ht h he =>
    refine he.another.imp (.retValue ht h) fun hmore u hu => ?_
    simpa using Derives.retValue ht h (hmore u hu)
  | block ho h hc => exact .inl (.block ho h hc)
  | oneBranch hi hc ht _ _ _ ih =>
    refine ih.imp (.oneBranch hi hc ht · (by decide)) fun hmore u hu => ?_
    simpa using Derives.oneBranch hi hc ht (hmore u hu) (by decide)
  | twoBranches hi hc ht hn he _ _ _ ih =>
    refine ih.imp (.twoBranches hi hc ht hn he) fun hmore u hu => ?_
    simpa using Derives.twoBranches hi hc ht hn he (hmore u hu)
  | loop hw hc hd _ _ ih =>
    refine ih.imp (.loop hw hc hd) fun hmore u hu => ?_
    simpa using Derives.loop hw hc hd (hmore u hu)
  | statement _ ih => exact ih.imp .statement fun hmore u hu => .statement (hmore u hu)
  | declareVar hv hx heq h he =>
    refine he.another.imp (.declareVar hv hx heq h) fun hmore u hu => ?_
    simpa using Derives.declareVar hv hx heq h (hmore u hu)
  | declareFunction hk hx h => exact .inl (.declareFunction hk hx h)
  | _ => trivial

theorem expression_of_primary {n : Node} (h : Derives f .primary ts n) : Derives f .expression ts n :=
  have htightest : Derives f (.operation []) ts n := .tightest (.plain (.callee h))
  .operation (.operand (.operand (.operand (.operand (.operand (.operand htightest))))))

end Derives

theorem Level.kind_of_operator {l : Level} {k : TokenKind} (hk : k ∈ l.operators) :
    k ≠ .endOfInput ∧ k ≠ .keyword .varWord := by
  constructor <;> rintro rfl <;> revert hk <;> cases l <;> decide

theorem Terminator.kind_ne_endOfInput {next : Follow} {es : List Token} (h : Terminator next es) :
    ∀ t ∈ es, t.kind ≠ .endOfInput := by
  intro t ht
  rw [h.kind_eq t ht]
  decide

theorem Parameters.kind_ne_endOfInput {ts : List Token} {xs : List String} (h : Parameters ts xs) :
    ∀ t ∈ ts, t.kind ≠ .endOfInput := by
  intro t ht heq
  have hmem := h.kind_mem t ht
  rw [heq] at hmem
  revert hmem
  decide

theorem Derives.kind_ne_endOfInput {f : Bool} {phrase : Phrase} {ts : List Token} {tree : phrase.Tree}
    (h : Derives f phrase ts tree) : ∀ t ∈ ts, t.kind ≠ .endOfInput := by
  induction h with
  | literal ht => rcases ht with ht | ht <;> simp [ht]
  | truth ht | falsity ht | nil ht | name ht | targetName ht => simp [ht]
  | group ho _ hc ih | targetGroup ho _ hc ih | block ho _ hc ih =>
    simpa [ho, hc, or_imp, forall_and] using ih
  | lambda ht _ ih => simpa [ht] using ih
  | callee _ ih | arguments _ ih | lastArgument _ ih | plain _ ih | tightest _ ih | operand _ ih
    | operation _ ih | statement _ ih | lastDeclaration _ ih => exact ih
  | call _ ho _ hc ih ihs => simpa [ho, hc, or_imp, forall_and] using ⟨ih, ihs⟩
  | noArguments | noDeclarations => simp
  | moreArguments _ hc _ ih ihs => simpa [hc, or_imp, forall_and] using ⟨ih, ihs⟩
  | unary hop _ ih => rcases hop with hop | hop <;> simpa [hop] using ih
  | binary _ hop _ iha ihb =>
    simpa [(Level.kind_of_operator hop).1, or_imp, forall_and] using ⟨iha, ihb⟩
  | assign _ heq _ ih ihn => simpa [heq, or_imp, forall_and] using ⟨ih, ihn⟩
  | definition hpo hxs hpc hbo _ hbc ih =>
    simpa [hpo, hpc, hbo, hbc, or_imp, forall_and] using ⟨hxs.kind_ne_endOfInput, ih⟩
  | expression _ he ih => simpa [or_imp, forall_and] using ⟨ih, he.kind_ne_endOfInput⟩
  | ret ht he => simpa [ht] using he.kind_ne_endOfInput
  | retValue ht _ he ih => simpa [ht, or_imp, forall_and] using ⟨ih, he.kind_ne_endOfInput⟩
  | oneBranch hi _ ht _ _ ihc ihn => simpa [hi, ht, or_imp, forall_and] using ⟨ihc, ihn⟩
  | twoBranches hi _ ht _ he _ ihc ihn ihm =>
    simpa [hi, ht, he, or_imp, forall_and] using ⟨ihc, ihn, ihm⟩
  | loop hw _ hd _ ihc ihn => simpa [hw, hd, or_imp, forall_and] using ⟨ihc, ihn⟩
  | declareVar hv hx heq _ he ih =>
    simpa [hv, hx, heq, or_imp, forall_and] using ⟨ih, he.kind_ne_endOfInput⟩
  | declareFunction hk hx _ ih => simpa [hk, hx] using ih
  | moreDeclarations _ _ _ ih ihs => simpa [or_imp, forall_and] using ⟨ih, ihs⟩

namespace Forms

variable {f : Bool} {ts us : List Token}

theorem declarations_single (h : Forms f (.declaration .ending) ts) : Forms f .declarations ts :=
  h.elim fun _ h => ⟨_, .lastDeclaration h⟩

theorem declarations_append (h : Forms f (.declaration .another) ts) (hs : Forms f .declarations us) :
    Forms f .declarations (ts ++ us) := by
  obtain ⟨n, hn⟩ := h
  obtain ⟨ns, hns⟩ := hs
  by_cases hus : us = []
  · subst hus
    rw [List.append_nil]
    exact ⟨_, .lastDeclaration (hn.follow .ending (.inr rfl))⟩
  · exact ⟨_, .moreDeclarations hn hns (hns.declarations_ne_nil hus)⟩

end Forms

end Scriptlet
