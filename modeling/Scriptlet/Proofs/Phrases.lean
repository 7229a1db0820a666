import Scriptlet.Syntax.Grammar

/-!
The grammar as a relation between rows of tokens and trees. It knows nothing of cursors, of
nesting or of an order in which alternatives are tried.
-/

namespace Scriptlet

inductive Level
  | disjunction | conjunction | equality | comparison | sum | product
  deriving DecidableEq

namespace Level

def operators : Level → List TokenKind
  | disjunction => [.keyword .orWord]
  | conjunction => [.keyword .andWord]
  | equality => [.symbol .equalEqual, .symbol .notEqual]
  | comparison =>
    [.symbol .less, .symbol .lessEqual, .symbol .greater, .symbol .greaterEqual]
  | sum => [.symbol .plus, .symbol .minus]
  | product => [.symbol .star, .symbol .slash]

def ladder : List Level :=
  [disjunction, conjunction, equality, comparison, sum, product]

end Level

inductive Follow
  | another | otherBranch | ending
  deriving DecidableEq

inductive Terminator : Follow → List Token → Prop
  | semicolon {next : Follow} {t : Token} (ht : t.kind = .symbol .semicolon) : Terminator next [t]
  | omitted : Terminator .ending []

inductive NameRow : List Token → List String → Prop
  | last {t : Token} (ht : t.kind = .identifier) : NameRow [t] [t.text]
  | more {t comma : Token} {ts : List Token} {xs : List String} (ht : t.kind = .identifier)
      (hc : comma.kind = .symbol .comma) (h : NameRow ts xs) :
      NameRow (t :: comma :: ts) (t.text :: xs)

inductive Parameters : List Token → List String → Prop
  | none : Parameters [] []
  | row {ts : List Token} {xs : List String} (h : NameRow ts xs) (hxs : xs.Nodup) : Parameters ts xs

inductive Phrase
  | primary | call | unary | operation (levels : List Level) | target | expression
  | arguments | argumentRow
  | definition (pos : Position) (name : Option String)
  | statement (next : Follow) | declaration (next : Follow) | declarations

abbrev Phrase.Tree : Phrase → Type
  | .arguments | .argumentRow | .declarations => List Node
  | .definition _ _ => Definition
  | .primary | .call | .unary | .operation _ | .target | .expression
  | .statement _ | .declaration _ => Node

/-- `Derives inBody phrase ts tree`: the tokens `ts` form the phrase and stand for the tree, in the
body of a function or outside of all functions. -/
inductive Derives : Bool → (phrase : Phrase) → List Token → phrase.Tree → Prop
  | literal {f : Bool} {t : Token} (ht : t.kind = .number ∨ t.kind = .string) :
      Derives f .primary [t] (.literal t.pos (Grammar.literalValue t))
  | truth {f : Bool} {t : Token} (ht : t.kind = .keyword .trueWord) :
      Derives f .primary [t] (.literal t.pos (.bool true))
  | falsity {f : Bool} {t : Token} (ht : t.kind = .keyword .falseWord) :
      Derives f .primary [t] (.literal t.pos (.bool false))
  | nil {f : Bool} {t : Token} (ht : t.kind = .keyword .nilWord) :
      Derives f .primary [t] (.literal t.pos .nil)
  | name {f : Bool} {t : Token} (ht : t.kind = .identifier) :
      Derives f .primary [t] (.name t.pos t.text)
  | group {f : Bool} {o c : Token} {ts : List Token} {n : Node}
      (ho : o.kind = .symbol .leftParen) (h : Derives f .expression ts n)
      (hc : c.kind = .symbol .rightParen) : Derives f .primary (o :: ts ++ [c]) n
  | lambda {f : Bool} {t : Token} {ts : List Token} {d : Definition}
      (ht : t.kind = .keyword .funWord) (h : Derives f (.definition t.pos none) ts d) :
      Derives f .primary (t :: ts) (.function d)
  | callee {f : Bool} {ts : List Token} {n : Node} (h : Derives f .primary ts n) :
      Derives f .call ts n
  | call {f : Bool} {o c : Token} {ts us : List Token} {n : Node} {ns : List Node}
      (h : Derives f .call ts n) (ho : o.kind = .symbol .leftParen)
      (hs : Derives f .arguments us ns) (hc : c.kind = .symbol .rightParen) :
      Derives f .call (ts ++ o :: us ++ [c]) (.call o.pos n ns)
  | noArguments {f : Bool} : Derives f .arguments [] []
  | arguments {f : Bool} {ts : List Token} {ns : List Node} (h : Derives f .argumentRow ts ns) :
      Derives f .arguments ts ns
  | lastArgument {f : Bool} {ts : List Token} {n : Node} (h : Derives f .expression ts n) :
      Derives f .argumentRow ts [n]
  | moreArguments {f : Bool} {comma : Token} {ts us : List Token} {n : Node} {ns : List Node}
      (h : Derives f .expression ts n) (hc : comma.kind = .symbol .comma)
      (hs : Derives f .argumentRow us ns) : Derives f .argumentRow (ts ++ comma :: us) (n :: ns)
  | plain {f : Bool} {ts : List Token} {n : Node} (h : Derives f .call ts n) : Derives f .unary ts n
  | unary {f : Bool} {op : Token} {ts : List Token} {n : Node}
      (hop : op.kind = .keyword .notWord ∨ op.kind = .symbol .minus) (h : Derives f .unary ts n) :
      Derives f .unary (op :: ts) (.unary op.pos op.text n)
  | tightest {f : Bool} {ts : List Token} {n : Node} (h : Derives f .unary ts n) :
      Derives f (.operation []) ts n
  | operand {f : Bool} {l : Level} {ls : List Level} {ts : List Token} {n : Node}
      (h : Derives f (.operation ls) ts n) : Derives f (.operation (l :: ls)) ts n
  | binary {f : Bool} {l : Level} {ls : List Level} {op : Token} {ts us : List Token} {a b : Node}
      (ha : Derives f (.operation (l :: ls)) ts a) (hop : op.kind ∈ l.operators)
      (hb : Derives f (.operation ls) us b) :
      Derives f (.operation (l :: ls)) (ts ++ op :: us) (.binary op.pos op.text a b)
  | targetName {f : Bool} {t : Token} (ht : t.kind = .identifier) :
      Derives f .target [t] (.name t.pos t.text)
  | targetGroup {f : Bool} {o c : Token} {ts : List Token} {n : Node}
      (ho : o.kind = .symbol .leftParen) (h : Derives f .target ts n)
      (hc : c.kind = .symbol .rightParen) : Derives f .target (o :: ts ++ [c]) n
  | operation {f : Bool} {ts : List Token} {n : Node} (h : Derives f (.operation Level.ladder) ts n) :
      Derives f .expression ts n
  | assign {f : Bool} {eq : Token} {ts us : List Token} {pos : Option Position} {x : String} {n : Node}
      (h : Derives f .target ts (.name pos x)) (heq : eq.kind = .symbol .equal)
      (hn : Derives f .expression us n) : Derives f .expression (ts ++ eq :: us) (.assign pos x n)
  | definition {f : Bool} {pos : Position} {name : Option String} {po pc bo bc : Token}
      {ts us : List Token} {xs : List String} {ns : List Node}
      (hpo : po.kind = .symbol .leftParen) (hxs : Parameters ts xs)
      (hpc : pc.kind = .symbol .rightParen) (hbo : bo.kind = .symbol .leftBrace)
      (hns : Derives true .declarations us ns) (hbc : bc.kind = .symbol .rightBrace) :
      Derives f (.definition pos name) (po :: ts ++ pc :: bo :: us ++ [bc])
        ⟨pos, name, xs, bo.pos, ns⟩
  | expression {f : Bool} {next : Follow} {ts es : List Token} {n : Node}
      (h : Derives f .expression ts n) (he : Terminator next es) :
      Derives f (.statement next) (ts ++ es) (.expression n.pos n)
  | ret {next : Follow} {t : Token} {es : List Token} (ht : t.kind = .keyword .returnWord)
      (he : Terminator next es) : Derives true (.statement next) (t :: es) (.ret t.pos none)
  | retValue {next : Follow} {t : Token} {ts es : List Token} {n : Node}
      (ht : t.kind = .keyword .returnWord) (h : Derives true .expression ts n)
      (he : Terminator next es) :
      Derives true (.statement next) (t :: ts ++ es) (.ret t.pos (some n))
  | block {f : Bool} {next : Follow} {o c : Token} {ts : List Token} {ns : List Node}
      (ho : o.kind = .symbol .leftBrace) (h : Derives f .declarations ts ns)
      (hc : c.kind = .symbol .rightBrace) :
      Derives f (.statement next) (o :: ts ++ [c]) (.block o.pos ns)
  | oneBranch {f : Bool} {next : Follow} {i t : Token} {cs ts : List Token} {c n : Node}
      (hi : i.kind = .keyword .ifWord) (hc : Derives f .expression cs c)
      (ht : t.kind = .keyword .thenWord) (hn : Derives f (.statement next) ts n)
      (hnext : next ≠ .otherBranch) :
      Derives f (.statement next) (i :: cs ++ t :: ts) (.conditional i.pos c n none)
  | twoBranches {f : Bool} {next : Follow} {i t e : Token} {cs ts us : List Token} {c n m : Node}
      (hi : i.kind = .keyword .ifWord) (hc : Derives f .expression cs c)
      (ht : t.kind = .keyword .thenWord) (hn : Derives f (.statement .otherBranch) ts n)
      (he : e.kind = .keyword .elseWord) (hm : Derives f (.statement next) us m) :
      Derives f (.statement next) (i :: cs ++ t :: ts ++ e :: us) (.conditional i.pos c n (some m))
  | loop {f : Bool} {next : Follow} {w d : Token} {cs ts : List Token} {c n : Node}
      (hw : w.kind = .keyword .whileWord) (hc : Derives f .expression cs c)
      (hd : d.kind = .keyword .doWord) (hn : Derives f (.statement next) ts n) :
      Derives f (.statement next) (w :: cs ++ d :: ts) (.loop w.pos c n)
  | statement {f : Bool} {next : Follow} {ts : List Token} {n : Node}
      (h : Derives f (.statement next) ts n) : Derives f (.declaration next) ts n
  | declareVar {f : Bool} {next : Follow} {v x eq : Token} {ts es : List Token} {n : Node}
      (hv : v.kind = .keyword .varWord) (hx : x.kind = .identifier)
      (heq : eq.kind = .symbol .equal) (h : Derives f .expression ts n) (he : Terminator next es) :
      Derives f (.declaration next) (v :: x :: eq :: ts ++ es) (.declareVar v.pos x.text n)
  | declareFunction {f : Bool} {next : Follow} {k x : Token} {ts : List Token} {d : Definition}
      (hk : k.kind = .keyword .funWord) (hx : x.kind = .identifier)
      (h : Derives f (.definition k.pos (some x.text)) ts d) :
      Derives f (.declaration next) (k :: x :: ts) (.declareFunction k.pos d)
  | noDeclarations {f : Bool} : Derives f .declarations [] []
  | lastDeclaration {f : Bool} {ts : List Token} {n : Node}
      (h : Derives f (.declaration .ending) ts n) : Derives f .declarations ts [n]
  | moreDeclarations {f : Bool} {ts us : List Token} {n : Node} {ns : List Node}
      (h : Derives f (.declaration .another) ts n) (hs : Derives f .declarations us ns)
      (hns : ns ≠ []) : Derives f .declarations (ts ++ us) (n :: ns)

end Scriptlet
