import Mathlib.Algebra.Ring.Nat
import Scriptlet.Proofs.JoinedPrograms
import Scriptlet.Proofs.Magnitudes

namespace Scriptlet

def IsName (x : String) : Prop :=
  x.toList ≠ [] ∧ ∀ c ∈ x.toList, Lexeme.isWordPart c

structure Token.Legible (t : Token) : Prop where
  name : t.kind = .identifier → IsName t.text
  spelling : ∀ s, t.kind.spelling? = some s → t.text = s
  number : ∀ x, t.value = some (.number x) → Number.IsMagnitude x

namespace Lexeme

variable {c : Char} {cs rest text : List Char} {kind : TokenKind} {v : Option Literal}

theorem string_value {value : List Char} (h : string text value cs = .token kind rest v) :
    ∃ s, v = some (.string s) := by
  fun_induction string text value cs with
  | case1 | case3 | case5 => simp at h
  | case2 =>
    simp only [token.injEq] at h
    exact ⟨_, h.2.2.symm⟩
  | case4 _ _ _ _ _ _ ih => exact ih h
  | case6 _ _ _ _ _ _ _ ih => exact ih h

theorem number_value (h : number cs = .token kind text v) {x : Float}
    (hx : v = some (.number x)) : Number.IsMagnitude x := by
  have hhex {intro digits : List Char} (h : hex intro digits = .token kind text v) :
      Number.IsMagnitude x := by
    simp only [hex] at h
    split at h
    · cases h
    · split at h
      · rename_i y hy
        simp only [token.injEq, hx] at h
        cases h.2.2
        exact Number.isMagnitude_ofHex? hy
      · cases h
  unfold number at h
  split at h
  · exact hhex h
  · exact hhex h
  · simp only [decimal, token.injEq, hx] at h
    cases h.2.2
    exact Number.isMagnitude_nearest _ _

theorem symbol_value (h : symbol c rest = .token kind text v) : v = none := by
  unfold symbol at h
  split at h
  · simp only [token.injEq] at h
    exact h.2.2.symm
  · split at h
    · simp only [token.injEq] at h
      exact h.2.2.symm
    · cases h

theorem read_number (h : read c rest = .token kind text v) {x : Float}
    (hx : v = some (.number x)) : Number.IsMagnitude x := by
  unfold read at h
  split at h
  · obtain ⟨s, hs⟩ := string_value h
    rw [hs] at hx
    cases hx
  · split at h
    · exact number_value h hx
    · split at h
      · simp only [word, token.injEq] at h
        rw [← h.2.2] at hx
        cases hx
      · rw [symbol_value h] at hx
        cases hx

theorem read_name (h : read c rest = .token .identifier text v) : IsName (.ofList text) := by
  refine ⟨by simpa using read_text_ne_nil h, fun d hd => ?_⟩
  rw [String.toList_ofList] at hd
  unfold read at h
  split at h
  · cases string_kind h
  · split at h
    · cases number_kind h
    · split at h
      · simp only [word, token.injEq] at h
        rw [← h.2.1] at hd
        exact List.all_eq_true.mp List.all_takeWhile d hd
      · obtain ⟨-, s, hs, -⟩ := symbol_front h
        cases hs

end Lexeme

theorem Scanner.legible_of_next {s s' : Scanner} {t : Token} (h : s.next = some (.ok t, s')) :
    t.Legible := by
  rcases lexical_of_next h with ⟨pos, offset, rfl⟩ | ⟨c, rest, hread⟩
  · exact ⟨nofun, nofun, nofun⟩
  · refine ⟨fun hkind => ?_, fun s hs => ?_, fun x hx => Lexeme.read_number hread hx⟩
    · rw [hkind] at hread
      simpa using Lexeme.read_name hread
    · simpa using (Lexeme.read_spelling hread).2 s hs

theorem TokenStream.legible_ofSource (source : String) :
    ∀ t ∈ (ofSource source).tokens, t.Legible :=
  (Scanner.ofSource source).forall_stream Scanner.legible_of_next #[] (List.forall_mem_nil _)

inductive Value.Legible : Value → Prop
  | nil : Legible .nil
  | bool (b : Bool) : Legible (.bool b)
  | number {x : Float} (hx : Number.IsMagnitude x) : Legible (.number x)
  | string (s : String) : Legible (.string s)

def IsOperator (op : String) : Prop :=
  op ∈ ["or", "and", "==", "!=", "<", "<=", ">", ">=", "+", "-", "*", "/", "not"]

instance (op : String) : Decidable (IsOperator op) :=
  inferInstanceAs (Decidable (op ∈ _))

structure Definition.Headed (d : Definition) : Prop where
  pos : d.pos.isSome
  bodyPos : d.bodyPos.isSome
  params : ∀ x ∈ d.params, IsName x

inductive Node.Legible : Role → Node → Prop
  | literal {p : Option Position} {v : Value} (hp : p.isSome) (hv : v.Legible) :
      Legible .expression (.literal p v)
  | name {p : Option Position} {x : String} (hp : p.isSome) (hx : IsName x) :
      Legible .expression (.name p x)
  | binary {p : Option Position} {op : String} {a b : Node} (hp : p.isSome) (hop : IsOperator op)
      (ha : Legible .expression a) (hb : Legible .expression b) :
      Legible .expression (.binary p op a b)
  | unary {p : Option Position} {op : String} {a : Node} (hp : p.isSome) (hop : IsOperator op)
      (ha : Legible .expression a) : Legible .expression (.unary p op a)
  | assign {p : Option Position} {x : String} {a : Node} (hp : p.isSome) (hx : IsName x)
      (ha : Legible .expression a) : Legible .expression (.assign p x a)
  | call {p : Option Position} {a : Node} {ns : List Node} (hp : p.isSome)
      (ha : Legible .expression a) (hns : ∀ n ∈ ns, Legible .expression n) :
      Legible .expression (.call p a ns)
  | function {d : Definition} (hd : d.Headed) (hname : d.name = none)
      (hbody : ∀ n ∈ d.body, Legible .declaration n) : Legible .expression (.function d)
  | expression {r : Role} {p : Option Position} {a : Node} (hr : r ≠ .expression) (hp : p.isSome)
      (ha : Legible .expression a) : Legible r (.expression p a)
  | block {r : Role} {p : Option Position} {ns : List Node} (hr : r ≠ .expression) (hp : p.isSome)
      (hns : ∀ n ∈ ns, Legible .declaration n) : Legible r (.block p ns)
  | oneBranch {r : Role} {p : Option Position} {c n : Node} (hr : r ≠ .expression) (hp : p.isSome)
      (hc : Legible .expression c) (hn : Legible .statement n) :
      Legible r (.conditional p c n none)
  | twoBranches {r : Role} {p : Option Position} {c n m : Node} (hr : r ≠ .expression)
      (hp : p.isSome) (hc : Legible .expression c) (hn : Legible .statement n)
      (hm : Legible .statement m) : Legible r (.conditional p c n (some m))
  | loop {r : Role} {p : Option Position} {c n : Node} (hr : r ≠ .expression) (hp : p.isSome)
      (hc : Legible .expression c) (hn : Legible .statement n) : Legible r (.loop p c n)
  | ret {r : Role} {p : Option Position} (hr : r ≠ .expression) (hp : p.isSome) :
      Legible r (.ret p none)
  | retValue {r : Role} {p : Option Position} {a : Node} (hr : r ≠ .expression) (hp : p.isSome)
      (ha : Legible .expression a) : Legible r (.ret p (some a))
  | declareVar {p : Option Position} {x : String} {a : Node} (hp : p.isSome) (hx : IsName x)
      (ha : Legible .expression a) : Legible .declaration (.declareVar p x a)
  | declareFunction {p : Option Position} {x : String} {d : Definition} (hp : p.isSome)
      (hd : d.Headed) (hx : IsName x) (hname : d.name = some x)
      (hbody : ∀ n ∈ d.body, Legible .declaration n) :
      Legible .declaration (.declareFunction p d)

namespace Node.Legible

variable {r : Role} {n : Node}

theorem declaration (h : n.Legible .statement) : n.Legible .declaration := by
  cases h with
  | expression _ hp ha => exact .expression nofun hp ha
  | block _ hp hns => exact .block nofun hp hns
  | oneBranch _ hp hc hn => exact .oneBranch nofun hp hc hn
  | twoBranches _ hp hc hn hm => exact .twoBranches nofun hp hc hn hm
  | loop _ hp hc hn => exact .loop nofun hp hc hn
  | ret _ hp => exact .ret nofun hp
  | retValue _ hp ha => exact .retValue nofun hp ha

theorem pos (h : n.Legible .expression) : n.pos.isSome := by
  cases h with
  | function hd => exact hd.pos
  | literal hp | name hp | binary hp | unary hp | assign hp | call hp => exact hp
  | expression hr | block hr | oneBranch hr | twoBranches hr | loop hr | ret hr | retValue hr =>
    exact absurd rfl hr

end Node.Legible

theorem Level.isOperator (l : Level) : ∀ kind ∈ l.operators,
    ∃ s, kind.spelling? = some s ∧ IsOperator s := by
  cases l <;> decide

theorem Token.Legible.operator {t : Token} (h : t.Legible) {s : String}
    (hs : t.kind.spelling? = some s) (hop : IsOperator s) : IsOperator t.text := by
  rwa [h.spelling s hs]

theorem Grammar.literalValue_legible {t : Token} (h : t.Legible) : (literalValue t).Legible := by
  unfold literalValue
  split
  · exact .nil
  · rename_i x hx
    exact .number (h.number x hx)
  · exact .string _

theorem NameRow.legible {ts : List Token} {xs : List String} (h : NameRow ts xs)
    (hts : ∀ t ∈ ts, t.Legible) : ∀ x ∈ xs, IsName x := by
  induction h with
  | last ht =>
    exact List.forall_mem_singleton.mpr ((hts _ (.head _)).name ht)
  | more ht _ _ ih =>
    simp only [List.forall_mem_cons] at hts
    exact List.forall_mem_cons.mpr ⟨hts.1.name ht, ih hts.2.2⟩

theorem Parameters.legible {ts : List Token} {xs : List String} (h : Parameters ts xs)
    (hts : ∀ t ∈ ts, t.Legible) : ∀ x ∈ xs, IsName x := by
  cases h with
  | none => exact List.forall_mem_nil _
  | row h => exact h.legible hts

def Phrase.Legible : (phrase : Phrase) → phrase.Tree → Prop
  | .primary, n | .call, n | .unary, n | .operation _, n | .target, n | .expression, n =>
    n.Legible .expression
  | .arguments, ns | .argumentRow, ns => ∀ n ∈ ns, n.Legible .expression
  | .definition _ name, d => d.Headed ∧ d.name = name ∧ ∀ n ∈ d.body, n.Legible .declaration
  | .statement _, n => n.Legible .statement
  | .declaration _, n => n.Legible .declaration
  | .declarations, ns => ∀ n ∈ ns, n.Legible .declaration

theorem Derives.legible {f : Bool} {phrase : Phrase} {ts : List Token} {tree : phrase.Tree}
    (h : Derives f phrase ts tree) : (∀ t ∈ ts, t.Legible) → phrase.Legible tree := by
  induction h with
  | literal => exact fun hts => .literal rfl (Grammar.literalValue_legible (hts _ (.head _)))
  | truth | falsity => exact fun _ => .literal rfl (.bool _)
  | nil => exact fun _ => .literal rfl .nil
  | name ht | targetName ht => exact fun hts => .name rfl ((hts _ (.head _)).name ht)
  | group _ _ _ ih | targetGroup _ _ _ ih =>
    intro hts
    simp only [List.cons_append, List.forall_mem_cons, List.forall_mem_append] at hts
    exact ih hts.2.1
  | lambda _ _ ih =>
    intro hts
    obtain ⟨hd, hname, hbody⟩ := ih (List.forall_mem_cons.mp hts).2
    exact .function hd hname hbody
  | callee _ ih | plain _ ih | tightest _ ih | operand _ ih | operation _ ih | arguments _ ih => exact ih
  | call _ _ _ _ ih ihs =>
    intro hts
    simp only [List.forall_mem_cons, List.forall_mem_append] at hts
    obtain ⟨⟨hts, -, hus⟩, -⟩ := hts
    exact .call rfl (ih hts) (ihs hus)
  | noArguments | noDeclarations => exact fun _ => nofun
  | lastArgument _ ih | lastDeclaration _ ih =>
    exact fun hts => List.forall_mem_singleton.mpr (ih hts)
  | moreArguments _ _ _ ih ihs =>
    intro hts
    simp only [List.forall_mem_cons, List.forall_mem_append] at hts
    obtain ⟨hts, -, hus⟩ := hts
    exact List.forall_mem_cons.mpr ⟨ih hts, ihs hus⟩
  | unary hop _ ih =>
    intro hts
    obtain ⟨ht, hts⟩ := List.forall_mem_cons.mp hts
    refine .unary rfl ?_ (ih hts)
    rcases hop with hop | hop
    · exact ht.operator (congrArg TokenKind.spelling? hop) (by decide)
    · exact ht.operator (congrArg TokenKind.spelling? hop) (by decide)
  | binary _ hop _ iha ihb =>
    intro hts
    simp only [List.forall_mem_cons, List.forall_mem_append] at hts
    obtain ⟨hts, hp, hus⟩ := hts
    obtain ⟨s, hs, hspelling⟩ := Level.isOperator _ _ hop
    exact .binary rfl (hp.operator hs hspelling) (iha hts) (ihb hus)
  | assign _ _ _ ih ihn =>
    intro hts
    simp only [List.forall_mem_cons, List.forall_mem_append] at hts
    obtain ⟨hts, -, hus⟩ := hts
    -- The target is a name, perhaps in parentheses, and stands for the tree of the name.
    have htarget : Node.Legible .expression (.name _ _) := ih hts
    cases htarget with
    | name hp hx => exact .assign hp hx (ihn hus)
  | definition _ hxs _ _ _ _ ih =>
    intro hts
    simp only [List.cons_append, List.forall_mem_cons, List.forall_mem_append] at hts
    obtain ⟨-, ⟨hps, -, -, hus⟩, -⟩ := hts
    exact ⟨⟨rfl, rfl, hxs.legible hps⟩, rfl, ih hus⟩
  | expression _ _ ih =>
    intro hts
    have hn := ih (List.forall_mem_append.mp hts).1
    exact .expression nofun (Node.Legible.pos hn) hn
  | ret => exact fun _ => .ret nofun rfl
  | retValue _ _ _ ih =>
    intro hts
    simp only [List.cons_append, List.forall_mem_cons, List.forall_mem_append] at hts
    exact .retValue nofun rfl (ih hts.2.1)
  | block _ _ _ ih =>
    intro hts
    simp only [List.cons_append, List.forall_mem_cons, List.forall_mem_append] at hts
    exact .block nofun rfl (ih hts.2.1)
  | oneBranch _ _ _ _ _ ihc ihn =>
    intro hts
    simp only [List.cons_append, List.forall_mem_cons, List.forall_mem_append] at hts
    exact .oneBranch nofun rfl (ihc hts.2.1) (ihn hts.2.2.2)
  | twoBranches _ _ _ _ _ _ ihc ihn ihm =>
    intro hts
    simp only [List.cons_append, List.append_assoc, List.forall_mem_cons,
      List.forall_mem_append] at hts
    obtain ⟨-, hcs, -, hts, -, hus⟩ := hts
    exact .twoBranches nofun rfl (ihc hcs) (ihn hts) (ihm hus)
  | loop _ _ _ _ ihc ihn =>
    intro hts
    simp only [List.cons_append, List.forall_mem_cons, List.forall_mem_append] at hts
    exact .loop nofun rfl (ihc hts.2.1) (ihn hts.2.2.2)
  | statement _ ih => exact fun hts => Node.Legible.declaration (ih hts)
  | declareVar _ hx _ _ _ ih =>
    intro hts
    simp only [List.cons_append, List.forall_mem_cons, List.forall_mem_append] at hts
    obtain ⟨-, ht, -, hts, -⟩ := hts
    exact .declareVar rfl (ht.name hx) (ih hts)
  | declareFunction _ hx _ ih =>
    intro hts
    simp only [List.forall_mem_cons] at hts
    obtain ⟨-, ht, hts⟩ := hts
    obtain ⟨hd, hname, hbody⟩ := ih hts
    exact .declareFunction rfl hd (ht.name hx) hname hbody
  | moreDeclarations _ _ _ ih ihs =>
    intro hts
    obtain ⟨hts, hus⟩ := List.forall_mem_append.mp hts
    exact List.forall_mem_cons.mpr ⟨ih hts, ihs hus⟩

theorem Program.legible_of_ofTokens {room : Nat} {maxNesting : Int} {source : String} {p : Program}
    (h : ofTokens room maxNesting (.ofSource source) = .ok p) :
    ∀ n ∈ p.statements, n.Legible .declaration := by
  obtain ⟨ts, eof, hts, heof, hstream⟩ := tokens_of_ofTokens h
  have hlegible := TokenStream.legible_ofSource source
  rw [hstream] at h hlegible
  exact (derives_of_ofTokens hts heof h).legible fun t ht => hlegible t (List.mem_append_left _ ht)

end Scriptlet
