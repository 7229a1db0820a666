import Scriptlet.Proofs.ProgramGrammar

namespace Scriptlet

inductive Role
  | expression | statement | declaration
  deriving DecidableEq

def Value.IsLiteral : Value → Prop
  | .nil | .bool _ | .number _ | .string _ => True
  | _ => False

/-- A node of a well formed tree, in the body of a function or outside of all functions. The tokens
that the tree is made of are in `P`. -/
inductive Formed (P : Token → Prop) : (inBody : Bool) → Role → Node → Prop
  | literal {f : Bool} {t : Token} {v : Value} (ht : P t) (hv : v.IsLiteral) :
      Formed P f .expression (.literal t.pos v)
  | name {f : Bool} {t : Token} (ht : P t) : Formed P f .expression (.name t.pos t.text)
  | binary {f : Bool} {l : Level} {t : Token} {a b : Node} (ht : P t) (hop : t.kind ∈ l.operators)
      (ha : Formed P f .expression a) (hb : Formed P f .expression b) :
      Formed P f .expression (.binary t.pos t.text a b)
  | unary {f : Bool} {t : Token} {a : Node} (ht : P t)
      (hop : t.kind = .keyword .notWord ∨ t.kind = .symbol .minus) (ha : Formed P f .expression a) :
      Formed P f .expression (.unary t.pos t.text a)
  | assign {f : Bool} {t : Token} {a : Node} (ht : P t) (ha : Formed P f .expression a) :
      Formed P f .expression (.assign t.pos t.text a)
  | call {f : Bool} {t : Token} {a : Node} {ns : List Node} (ht : P t)
      (ha : Formed P f .expression a) (hns : ∀ n ∈ ns, Formed P f .expression n) :
      Formed P f .expression (.call t.pos a ns)
  | function {f : Bool} {t : Token} {d : Definition} (ht : P t) (hpos : d.pos = some t.pos)
      (hbody : ∀ n ∈ d.body, Formed P true .declaration n) : Formed P f .expression (.function d)
  | expression {f : Bool} {r : Role} {a : Node} (hr : r ≠ .expression)
      (ha : Formed P f .expression a) : Formed P f r (.expression a.pos a)
  | block {f : Bool} {r : Role} {t : Token} {ns : List Node} (hr : r ≠ .expression) (ht : P t)
      (hns : ∀ n ∈ ns, Formed P f .declaration n) : Formed P f r (.block t.pos ns)
  | oneBranch {f : Bool} {r : Role} {t : Token} {c n : Node} (hr : r ≠ .expression) (ht : P t)
      (hc : Formed P f .expression c) (hn : Formed P f .statement n) :
      Formed P f r (.conditional t.pos c n none)
  | twoBranches {f : Bool} {r : Role} {t : Token} {c n m : Node} (hr : r ≠ .expression) (ht : P t)
      (hc : Formed P f .expression c) (hn : Formed P f .statement n)
      (hm : Formed P f .statement m) : Formed P f r (.conditional t.pos c n (some m))
  | loop {f : Bool} {r : Role} {t : Token} {c n : Node} (hr : r ≠ .expression) (ht : P t)
      (hc : Formed P f .expression c) (hn : Formed P f .statement n) :
      Formed P f r (.loop t.pos c n)
  | ret {r : Role} {t : Token} (hr : r ≠ .expression) (ht : P t) : Formed P true r (.ret t.pos none)
  | retValue {r : Role} {t : Token} {a : Node} (hr : r ≠ .expression) (ht : P t)
      (ha : Formed P true .expression a) : Formed P true r (.ret t.pos (some a))
  | declareVar {f : Bool} {t x : Token} {a : Node} (ht : P t) (hx : P x)
      (ha : Formed P f .expression a) : Formed P f .declaration (.declareVar t.pos x.text a)
  | declareFunction {f : Bool} {t x : Token} {d : Definition} (ht : P t) (hx : P x)
      (hname : d.name = some x.text) (hbody : ∀ n ∈ d.body, Formed P true .declaration n) :
      Formed P f .declaration (.declareFunction t.pos d)

namespace Node

def parts : Node → List Node
  | .binary _ _ a b => [a, b]
  | .unary _ _ a | .assign _ _ a | .expression _ a | .declareVar _ _ a => [a]
  | .call _ a ns => a :: ns
  | .function d | .declareFunction _ d => d.body
  | .program _ ns | .block _ ns => ns
  | .conditional _ c a b => c :: a :: b.toList
  | .loop _ c a => [c, a]
  | .ret _ a => a.toList
  | .literal .. | .name .. | .hole .. => []

inductive Within (n : Node) : Node → Prop
  | self : Within n n
  | part {m k : Node} (hk : k ∈ m.parts) (h : Within n k) : Within n m

end Node

namespace Formed

variable {P Q : Token → Prop} {f : Bool} {r : Role} {n : Node}

theorem declaration (h : Formed P f .statement n) : Formed P f .declaration n := by
  cases h with
  | expression _ ha => exact .expression nofun ha
  | block _ ht hns => exact .block nofun ht hns
  | oneBranch _ ht hc hn => exact .oneBranch nofun ht hc hn
  | twoBranches _ ht hc hn hm => exact .twoBranches nofun ht hc hn hm
  | loop _ ht hc hn => exact .loop nofun ht hc hn
  | ret _ ht => exact .ret nofun ht
  | retValue _ ht ha => exact .retValue nofun ht ha

theorem pos (h : Formed P f r n) : ∃ t, P t ∧ n.pos = some t.pos := by
  induction h with
  | function ht hpos _ => exact ⟨_, ht, hpos⟩
  | expression _ _ ih => exact ih
  | literal ht | name ht | binary ht | unary ht | assign ht | call ht | block _ ht | oneBranch _ ht
  | twoBranches _ ht | loop _ ht | ret _ ht | retValue _ ht | declareVar ht | declareFunction ht =>
    exact ⟨_, ht, rfl⟩

theorem imp (h : Formed P f r n) (hPQ : ∀ t, P t → Q t) : Formed Q f r n := by
  induction h with
  | literal ht hv => exact .literal (hPQ _ ht) hv
  | name ht => exact .name (hPQ _ ht)
  | binary ht hop _ _ iha ihb => exact .binary (hPQ _ ht) hop iha ihb
  | unary ht hop _ ih => exact .unary (hPQ _ ht) hop ih
  | assign ht _ ih => exact .assign (hPQ _ ht) ih
  | call ht _ _ ih ihs => exact .call (hPQ _ ht) ih ihs
  | function ht hpos _ ihs => exact .function (hPQ _ ht) hpos ihs
  | expression hr _ ih => exact .expression hr ih
  | block hr ht _ ihs => exact .block hr (hPQ _ ht) ihs
  | oneBranch hr ht _ _ ihc ihn => exact .oneBranch hr (hPQ _ ht) ihc ihn
  | twoBranches hr ht _ _ _ ihc ihn ihm => exact .twoBranches hr (hPQ _ ht) ihc ihn ihm
  | loop hr ht _ _ ihc ihn => exact .loop hr (hPQ _ ht) ihc ihn
  | ret hr ht => exact .ret hr (hPQ _ ht)
  | retValue hr ht _ ih => exact .retValue hr (hPQ _ ht) ih
  | declareVar ht hx _ ih => exact .declareVar (hPQ _ ht) (hPQ _ hx) ih
  | declareFunction ht hx hname _ ihs => exact .declareFunction (hPQ _ ht) (hPQ _ hx) hname ihs

theorem part (h : Formed P f r n) {m : Node} (hm : m ∈ n.parts) : ∃ f' r', Formed P f' r' m := by
  cases h with
  | literal | name | ret => cases hm
  | binary _ _ ha hb =>
    obtain rfl | rfl : m = _ ∨ m = _ := by simpa [Node.parts] using hm
    · exact ⟨f, _, ha⟩
    · exact ⟨f, _, hb⟩
  | unary _ _ ha | assign _ ha | expression _ ha | retValue _ _ ha | declareVar _ _ ha =>
    obtain rfl : m = _ := by simpa [Node.parts] using hm
    exact ⟨_, _, ha⟩
  | call _ ha hns =>
    rcases List.mem_cons.mp hm with rfl | hm
    · exact ⟨f, _, ha⟩
    · exact ⟨f, _, hns m hm⟩
  | function _ _ hbody | declareFunction _ _ _ hbody => exact ⟨true, _, hbody m hm⟩
  | block _ _ hns => exact ⟨f, _, hns m hm⟩
  | oneBranch _ _ hc hn | loop _ _ hc hn =>
    obtain rfl | rfl : m = _ ∨ m = _ := by simpa [Node.parts] using hm
    · exact ⟨f, _, hc⟩
    · exact ⟨f, _, hn⟩
  | twoBranches _ _ hc hn hm' =>
    obtain rfl | rfl | rfl : m = _ ∨ m = _ ∨ m = _ := by simpa [Node.parts] using hm
    · exact ⟨f, _, hc⟩
    · exact ⟨f, _, hn⟩
    · exact ⟨f, _, hm'⟩

theorem within (h : Formed P f r n) {m : Node} (hm : m.Within n) : ∃ f' r', Formed P f' r' m := by
  induction hm generalizing f r with
  | self => exact ⟨f, r, h⟩
  | part hk _ ih =>
    obtain ⟨f', r', hk'⟩ := h.part hk
    exact ih hk'

end Formed

def Phrase.Forms (P : Token → Prop) (f : Bool) : (phrase : Phrase) → phrase.Tree → Prop
  | .primary, n | .call, n | .unary, n | .operation _, n | .target, n | .expression, n =>
    Formed P f .expression n
  | .arguments, ns | .argumentRow, ns => ∀ n ∈ ns, Formed P f .expression n
  | .definition pos name, d =>
    d.pos = some pos ∧ d.name = name ∧ ∀ n ∈ d.body, Formed P true .declaration n
  | .statement _, n => Formed P f .statement n
  | .declaration _, n => Formed P f .declaration n
  | .declarations, ns => ∀ n ∈ ns, Formed P f .declaration n

theorem Grammar.literalValue_isLiteral (t : Token) : (literalValue t).IsLiteral := by
  unfold literalValue
  split <;> exact trivial

theorem Derives.forms {P : Token → Prop} {f : Bool} {phrase : Phrase} {ts : List Token}
    {tree : phrase.Tree} (h : Derives f phrase ts tree) :
    (∀ t ∈ ts, P t) → phrase.Forms P f tree := by
  induction h with
  | literal => exact fun hts => .literal (hts _ (.head _)) (Grammar.literalValue_isLiteral _)
  | truth | falsity | nil => exact fun hts => .literal (hts _ (.head _)) trivial
  | name | targetName => exact fun hts => .name (hts _ (.head _))
  | group _ _ _ ih | targetGroup _ _ _ ih =>
    intro hts
    simp only [List.cons_append, List.forall_mem_cons, List.forall_mem_append] at hts
    exact ih hts.2.1
  | lambda _ _ ih =>
    intro hts
    obtain ⟨ht, hts⟩ := List.forall_mem_cons.mp hts
    obtain ⟨hpos, -, hbody⟩ := ih hts
    exact .function ht hpos hbody
  | callee _ ih | plain _ ih | tightest _ ih | operand _ ih | operation _ ih | arguments _ ih => exact ih
  | call _ _ _ _ ih ihs =>
    intro hts
    simp only [List.forall_mem_cons, List.forall_mem_append] at hts
    obtain ⟨⟨hts, ho, hus⟩, -⟩ := hts
    exact .call ho (ih hts) (ihs hus)
  | noArguments | noDeclarations => exact fun _ => nofun
  | lastArgument _ ih | lastDeclaration _ ih =>
    exact fun hts => List.forall_mem_singleton.mpr (ih hts)
  | moreArguments _ _ _ ih ihs =>
    intro hts
    simp only [List.forall_mem_cons, List.forall_mem_append] at hts
    obtain ⟨hts, -, hus⟩ := hts
    exact List.forall_mem_cons.mpr ⟨ih hts, ihs hus⟩
  | unary hop _ ih =>
    intro hts
    obtain ⟨ht, hts⟩ := List.forall_mem_cons.mp hts
    exact .unary ht hop (ih hts)
  | binary _ hop _ iha ihb =>
    intro hts
    simp only [List.forall_mem_cons, List.forall_mem_append] at hts
    obtain ⟨hts, hp, hus⟩ := hts
    exact .binary hp hop (iha hts) (ihb hus)
  | assign _ _ _ ih ihn =>
    intro hts
    simp only [List.forall_mem_cons, List.forall_mem_append] at hts
    obtain ⟨hts, -, hus⟩ := hts
    have htarget : Formed P _ .expression (.name _ _) := ih hts
    cases htarget with
    | name ht => exact .assign ht (ihn hus)
  | definition _ _ _ _ _ _ ih =>
    intro hts
    simp only [List.forall_mem_cons, List.forall_mem_append] at hts
    obtain ⟨⟨-, -, -, hus⟩, -⟩ := hts
    exact ⟨rfl, rfl, ih hus⟩
  | expression _ _ ih =>
    intro hts
    exact .expression nofun (ih (List.forall_mem_append.mp hts).1)
  | ret =>
    intro hts
    exact .ret nofun (List.forall_mem_cons.mp hts).1
  | retValue _ _ _ ih =>
    intro hts
    simp only [List.cons_append, List.forall_mem_cons, List.forall_mem_append] at hts
    exact .retValue nofun hts.1 (ih hts.2.1)
  | block _ _ _ ih =>
    intro hts
    simp only [List.cons_append, List.forall_mem_cons, List.forall_mem_append] at hts
    exact .block nofun hts.1 (ih hts.2.1)
  | oneBranch _ _ _ _ _ ihc ihn =>
    intro hts
    simp only [List.cons_append, List.forall_mem_cons, List.forall_mem_append] at hts
    exact .oneBranch nofun hts.1 (ihc hts.2.1) (ihn hts.2.2.2)
  | twoBranches _ _ _ _ _ _ ihc ihn ihm =>
    intro hts
    simp only [List.cons_append, List.append_assoc, List.forall_mem_cons,
      List.forall_mem_append] at hts
    obtain ⟨hi, hcs, -, hts, -, hus⟩ := hts
    exact .twoBranches nofun hi (ihc hcs) (ihn hts) (ihm hus)
  | loop _ _ _ _ ihc ihn =>
    intro hts
    simp only [List.cons_append, List.forall_mem_cons, List.forall_mem_append] at hts
    exact .loop nofun hts.1 (ihc hts.2.1) (ihn hts.2.2.2)
  | statement _ ih => exact fun hts => (ih hts).declaration
  | declareVar _ _ _ _ _ ih =>
    intro hts
    simp only [List.cons_append, List.forall_mem_cons, List.forall_mem_append] at hts
    obtain ⟨hv, hx, -, hts, -⟩ := hts
    exact .declareVar hv hx (ih hts)
  | declareFunction _ _ _ ih =>
    intro hts
    simp only [List.forall_mem_cons] at hts
    obtain ⟨hk, hx, hts⟩ := hts
    obtain ⟨-, hname, hbody⟩ := ih hts
    exact .declareFunction hk hx hname hbody
  | moreDeclarations _ _ _ ih ihs =>
    intro hts
    obtain ⟨hts, hus⟩ := List.forall_mem_append.mp hts
    exact List.forall_mem_cons.mpr ⟨ih hts, ihs hus⟩

def Token.inFirstLine (kind : TokenKind) (text : String) (column : Nat) : Token :=
  ⟨kind, text, ⟨1, column⟩, column - 1, none⟩

theorem Program.formed_of_ofTokens {room : Nat} {maxNesting : Int} {s : TokenStream} {p : Program}
    (hp : ofTokens room maxNesting s = .ok p) :
    ∃ c d us, Cursor.ofStream s = .ok c ∧ c.Passes us d ∧
      ∀ n ∈ p.statements, Formed (· ∈ us) false .declaration n := by
  obtain ⟨c, us, d, hc, hpasses, -, -, hderives⟩ := declarations_of_ofTokens hp
  exact ⟨c, d, us, hc, hpasses, hderives.forms fun _ h => h⟩

end Scriptlet
