import Mathlib.Data.List.Forall2
import Mathlib.Logic.Relation
import Scriptlet.Proofs.EndOfInput
import Scriptlet.Proofs.JoinedPrograms
import Scriptlet.Proofs.TreeShape

/-!
Where the nodes of a tree have their places. Every node below the root of a parsed tree is supplied by
tokens that stand in a row, and one of them, fixed by the sort of the node, gives it its place: the
operator between its operands, the parenthesis in front of its arguments, its first word.
-/

namespace Scriptlet

inductive Grouped (ts : List Token) : List Token → Prop
  | bare : Grouped ts ts
  | group {o c : Token} {us : List Token} (ho : o.kind = .symbol .leftParen) (h : Grouped ts us)
      (hc : c.kind = .symbol .rightParen) : Grouped ts (o :: us ++ [c])

inductive CommaRow : List (List Token) → List Token → Prop
  | none : CommaRow [] []
  | last {ts : List Token} : CommaRow [ts] ts
  | more {comma : Token} {ts us : List Token} {rows : List (List Token)}
      (hc : comma.kind = .symbol .comma) (hrows : rows ≠ []) (h : CommaRow rows us) :
      CommaRow (ts :: rows) (ts ++ comma :: us)

def Token.Supplies (t : Token) (v : Value) : Prop :=
  (t.kind = .number ∨ t.kind = .string) ∧ v = Grammar.literalValue t ∨
    t.kind = .keyword .trueWord ∧ v = .bool true ∨
    t.kind = .keyword .falseWord ∧ v = .bool false ∨
    t.kind = .keyword .nilWord ∧ v = .nil

namespace Node

def children : Node → List Node
  | .binary _ _ a b => [a, b]
  | .unary _ _ a | .assign _ _ a | .expression _ a | .declareVar _ _ a => [a]
  | .call _ a ns => a :: ns
  | .function d => [.block d.bodyPos d.body]
  | .declareFunction _ d => [.function d]
  | .program _ ns | .block _ ns => ns
  | .conditional _ c a b => c :: a :: b.toList
  | .loop _ c a => [c, a]
  | .ret _ a => a.toList
  | .literal .. | .name .. | .hole .. => []

def Below (n m : Node) : Prop :=
  Relation.TransGen (fun k m => k ∈ m.children) n m

/-- The node consists of the tokens `ts`, of which the rows supply its children in their order. The
place of the node is that of one of the other tokens, or of the child of an expression statement. -/
def Marked (ts : List Token) (rows : List (List Token)) : Node → Prop
  | .literal pos v => rows = [] ∧ ∃ t, ts = [t] ∧ t.Supplies v ∧ pos = some t.pos
  | .name pos x =>
    rows = [] ∧ ∃ t, ts = [t] ∧ t.kind = .identifier ∧ x = t.text ∧ pos = some t.pos
  | .binary pos op _ _ =>
    ∃ ls t rs, rows = [ls, rs] ∧ ts = ls ++ t :: rs ∧ (∃ l : Level, t.kind ∈ l.operators) ∧
      op = t.text ∧ pos = some t.pos
  | .unary pos op _ =>
    ∃ t rs, rows = [rs] ∧ ts = t :: rs ∧
      (t.kind = .keyword .notWord ∨ t.kind = .symbol .minus) ∧ op = t.text ∧ pos = some t.pos
  | .assign pos x _ =>
    ∃ t ls eq rs, rows = [rs] ∧ ts = ls ++ eq :: rs ∧ Grouped [t] ls ∧
      eq.kind = .symbol .equal ∧ t.kind = .identifier ∧ x = t.text ∧ pos = some t.pos
  | .call pos _ _ =>
    ∃ ls t args us c, rows = ls :: args ∧ ts = ls ++ t :: us ++ [c] ∧ CommaRow args us ∧
      t.kind = .symbol .leftParen ∧ c.kind = .symbol .rightParen ∧ pos = some t.pos
  | .function d =>
    ∃ t header body, rows = [body] ∧ ts = t :: header ++ body ∧ t.kind = .keyword .funWord ∧
      d.pos = some t.pos
  | .program pos _ => ts = rows.flatten ∧ pos = some .start
  | .expression pos a =>
    ∃ ls es, rows = [ls] ∧ ts = ls ++ es ∧ (∃ next, Terminator next es) ∧ pos = a.pos
  | .declareVar pos x _ =>
    ∃ t name eq rs es, rows = [rs] ∧ ts = t :: name :: eq :: rs ++ es ∧
      (∃ next, Terminator next es) ∧ t.kind = .keyword .varWord ∧ name.kind = .identifier ∧
      eq.kind = .symbol .equal ∧ x = name.text ∧ pos = some t.pos
  | .declareFunction pos d =>
    ∃ t name us, rows = [ts] ∧ ts = t :: name :: us ∧ t.kind = .keyword .funWord ∧
      name.kind = .identifier ∧ d.name = some name.text ∧ pos = some t.pos
  | .block pos _ =>
    ∃ t c, ts = t :: rows.flatten ++ [c] ∧ t.kind = .symbol .leftBrace ∧
      c.kind = .symbol .rightBrace ∧ pos = some t.pos
  | .conditional pos _ _ none =>
    ∃ t cs u us, rows = [cs, us] ∧ ts = t :: cs ++ u :: us ∧ t.kind = .keyword .ifWord ∧
      u.kind = .keyword .thenWord ∧ pos = some t.pos
  | .conditional pos _ _ (some _) =>
    ∃ t cs u us v vs, rows = [cs, us, vs] ∧ ts = t :: cs ++ u :: us ++ v :: vs ∧
      t.kind = .keyword .ifWord ∧ u.kind = .keyword .thenWord ∧ v.kind = .keyword .elseWord ∧
      pos = some t.pos
  | .loop pos _ _ =>
    ∃ t cs u us, rows = [cs, us] ∧ ts = t :: cs ++ u :: us ∧ t.kind = .keyword .whileWord ∧
      u.kind = .keyword .doWord ∧ pos = some t.pos
  | .ret pos _ =>
    ∃ t es, ts = t :: rows.flatten ++ es ∧ (∃ next, Terminator next es) ∧
      t.kind = .keyword .returnWord ∧ pos = some t.pos
  | .hole .. => False

inductive Supplied : List Token → Node → Prop
  | node {ts us : List Token} {rows : List (List Token)} {n : Node} (hgroup : Grouped ts us)
      (h : n.Marked ts rows) (hrows : List.Forall₂ Supplied rows n.children) : Supplied us n

end Node

namespace Node.Supplied

variable {ts : List Token} {n : Node}

theorem of_marked {rows : List (List Token)} (h : n.Marked ts rows)
    (hrows : List.Forall₂ Supplied rows n.children) : n.Supplied ts :=
  .node .bare h hrows

theorem group {o c : Token} (h : n.Supplied ts) (ho : o.kind = .symbol .leftParen)
    (hc : c.kind = .symbol .rightParen) : n.Supplied (o :: ts ++ [c]) := by
  cases h with
  | node hgroup h hrows => exact .node (.group ho hgroup hc) h hrows

end Node.Supplied

def Phrase.Supplied (ts : List Token) : (phrase : Phrase) → phrase.Tree → Prop
  | .primary, n | .call, n | .unary, n | .operation _, n | .expression, n | .statement _, n
  | .declaration _, n => n.Supplied ts
  | .target, n => ∃ t, Grouped [t] ts ∧ t.kind = .identifier ∧ n = .name t.pos t.text
  | .arguments, ns => ∃ rows, CommaRow rows ts ∧ List.Forall₂ Node.Supplied rows ns
  | .argumentRow, ns => ∃ rows, CommaRow rows ts ∧ rows ≠ [] ∧ List.Forall₂ Node.Supplied rows ns
  | .definition pos name, d =>
    d.pos = some pos ∧ d.name = name ∧
      ∃ header body, ts = header ++ body ∧ (Node.block d.bodyPos d.body).Supplied body
  | .declarations, ns =>
    ∃ rows : List (List Token), ts = rows.flatten ∧ List.Forall₂ Node.Supplied rows ns

theorem Derives.supplied {f : Bool} {phrase : Phrase} {ts : List Token} {tree : phrase.Tree}
    (h : Derives f phrase ts tree) : phrase.Supplied ts tree := by
  induction h with
  | literal ht => exact .of_marked ⟨rfl, _, rfl, .inl ⟨ht, rfl⟩, rfl⟩ .nil
  | truth ht => exact .of_marked ⟨rfl, _, rfl, .inr (.inl ⟨ht, rfl⟩), rfl⟩ .nil
  | falsity ht => exact .of_marked ⟨rfl, _, rfl, .inr (.inr (.inl ⟨ht, rfl⟩)), rfl⟩ .nil
  | nil ht => exact .of_marked ⟨rfl, _, rfl, .inr (.inr (.inr ⟨ht, rfl⟩)), rfl⟩ .nil
  | name ht => exact .of_marked ⟨rfl, _, rfl, ht, rfl, rfl⟩ .nil
  | group ho _ hc ih => exact ih.group ho hc
  | lambda ht _ ih =>
    obtain ⟨hpos, -, header, body, rfl, hbody⟩ := ih
    exact .of_marked ⟨_, header, body, rfl, rfl, ht, hpos⟩ (.cons hbody .nil)
  | callee _ ih | plain _ ih | tightest _ ih | operand _ ih | operation _ ih | statement _ ih =>
    exact ih
  | call _ ho _ hc ih ihs =>
    obtain ⟨rows, hcommas, hrows⟩ := ihs
    exact .of_marked ⟨_, _, rows, _, _, rfl, rfl, hcommas, ho, hc, rfl⟩ (.cons ih hrows)
  | noArguments => exact ⟨[], .none, .nil⟩
  | arguments _ ih =>
    obtain ⟨rows, hcommas, -, hrows⟩ := ih
    exact ⟨rows, hcommas, hrows⟩
  | lastArgument _ ih => exact ⟨[_], .last, List.cons_ne_nil _ _, .cons ih .nil⟩
  | moreArguments _ hc _ ih ihs =>
    obtain ⟨rows, hcommas, hne, hrows⟩ := ihs
    exact ⟨_ :: rows, .more hc hne hcommas, List.cons_ne_nil _ _, .cons ih hrows⟩
  | unary hop _ ih => exact .of_marked ⟨_, _, rfl, rfl, hop, rfl, rfl⟩ (.cons ih .nil)
  | binary _ hop _ iha ihb =>
    exact .of_marked ⟨_, _, _, rfl, rfl, ⟨_, hop⟩, rfl, rfl⟩ (.cons iha (.cons ihb .nil))
  | targetName ht => exact ⟨_, .bare, ht, rfl⟩
  | targetGroup ho _ hc ih =>
    obtain ⟨t, hgroup, ht, rfl⟩ := ih
    exact ⟨t, .group ho hgroup hc, ht, rfl⟩
  | assign _ heq _ ih ihn =>
    obtain ⟨t, hgroup, ht, hname⟩ := ih
    cases hname
    exact .of_marked ⟨t, _, _, _, rfl, rfl, hgroup, heq, ht, rfl, rfl⟩ (.cons ihn .nil)
  | @definition _ _ _ po pc bo bc params _ _ _ _ _ _ hbo _ hbc ih =>
    obtain ⟨rows, rfl, hrows⟩ := ih
    refine ⟨rfl, rfl, po :: params ++ [pc], bo :: rows.flatten ++ [bc], by simp, ?_⟩
    exact .of_marked ⟨_, _, rfl, hbo, hbc, rfl⟩ hrows
  | expression _ he ih => exact .of_marked ⟨_, _, rfl, rfl, ⟨_, he⟩, rfl⟩ (.cons ih .nil)
  | ret ht he => exact .of_marked ⟨_, _, rfl, ⟨_, he⟩, ht, rfl⟩ .nil
  | retValue ht _ he ih =>
    exact .of_marked ⟨_, _, by rw [List.flatten_singleton], ⟨_, he⟩, ht, rfl⟩ (.cons ih .nil)
  | block ho _ hc ih =>
    obtain ⟨rows, rfl, hrows⟩ := ih
    exact .of_marked ⟨_, _, rfl, ho, hc, rfl⟩ hrows
  | oneBranch hi _ ht _ _ ihc ihn =>
    exact .of_marked ⟨_, _, _, _, rfl, rfl, hi, ht, rfl⟩ (.cons ihc (.cons ihn .nil))
  | twoBranches hi _ ht _ he _ ihc ihn ihm =>
    exact .of_marked ⟨_, _, _, _, _, _, rfl, rfl, hi, ht, he, rfl⟩
      (.cons ihc (.cons ihn (.cons ihm .nil)))
  | loop hw _ hd _ ihc ihn =>
    exact .of_marked ⟨_, _, _, _, rfl, rfl, hw, hd, rfl⟩ (.cons ihc (.cons ihn .nil))
  | declareVar hv hx heq _ he ih =>
    exact .of_marked ⟨_, _, _, _, _, rfl, rfl, ⟨_, he⟩, hv, hx, heq, rfl, rfl⟩ (.cons ih .nil)
  | declareFunction hk hx _ ih =>
    obtain ⟨hpos, hname, header, body, rfl, hbody⟩ := ih
    refine .of_marked ⟨_, _, _, rfl, rfl, hk, hx, hname, rfl⟩ (.cons ?_ .nil)
    exact .of_marked ⟨_, _ :: header, body, rfl, rfl, hk, hpos⟩ (.cons hbody .nil)
  | noDeclarations => exact ⟨[], rfl, .nil⟩
  | lastDeclaration _ ih => exact ⟨[_], by simp, .cons ih .nil⟩
  | moreDeclarations _ _ _ ih ihs =>
    obtain ⟨rows, rfl, hrows⟩ := ihs
    exact ⟨_ :: rows, by simp, .cons ih hrows⟩

theorem Grouped.contains {ts us : List Token} (h : Grouped ts us) : ts <:+: us := by
  induction h with
  | bare => exact List.infix_rfl
  | @group o c us _ _ _ ih => exact ih.trans ⟨[o], [c], rfl⟩

theorem CommaRow.contains {rows : List (List Token)} {ts : List Token} (h : CommaRow rows ts) :
    ∀ row ∈ rows, row <:+: ts := by
  induction h with
  | none => exact nofun
  | last => exact List.forall_mem_singleton.mpr List.infix_rfl
  | @more comma ts us rows _ _ _ ih =>
    refine List.forall_mem_cons.mpr ⟨List.infix_append' [] ts _, fun row hrow => ?_⟩
    exact (ih row hrow).trans ⟨ts ++ [comma], [], by simp⟩

namespace Node

theorem Marked.contains {n : Node} {ts : List Token} {rows : List (List Token)}
    (h : n.Marked ts rows) : ∀ row ∈ rows, row <:+: ts := by
  cases n with
  | literal | name =>
    obtain ⟨rfl, -⟩ := h
    exact nofun
  | binary =>
    obtain ⟨ls, t, rs, rfl, rfl, -⟩ := h
    exact List.forall_mem_cons.mpr
      ⟨⟨[], t :: rs, rfl⟩, List.forall_mem_singleton.mpr ⟨ls ++ [t], [], by simp⟩⟩
  | unary =>
    obtain ⟨t, rs, rfl, rfl, -⟩ := h
    exact List.forall_mem_singleton.mpr ⟨[t], [], by simp⟩
  | assign =>
    obtain ⟨t, ls, eq, rs, rfl, rfl, -⟩ := h
    exact List.forall_mem_singleton.mpr ⟨ls ++ [eq], [], by simp⟩
  | call =>
    obtain ⟨ls, t, args, us, c, rfl, rfl, hcommas, -⟩ := h
    refine List.forall_mem_cons.mpr ⟨⟨[], t :: us ++ [c], by simp⟩, fun row hrow => ?_⟩
    exact (hcommas.contains row hrow).trans ⟨ls ++ [t], [c], by simp⟩
  | function =>
    obtain ⟨t, header, body, rfl, rfl, -⟩ := h
    exact List.forall_mem_singleton.mpr ⟨t :: header, [], by simp⟩
  | program =>
    obtain ⟨rfl, -⟩ := h
    exact fun row => List.infix_of_mem_flatten
  | expression =>
    obtain ⟨ls, es, rfl, rfl, -⟩ := h
    exact List.forall_mem_singleton.mpr ⟨[], es, by simp⟩
  | declareVar =>
    obtain ⟨t, name, eq, rs, es, rfl, rfl, -⟩ := h
    exact List.forall_mem_singleton.mpr ⟨[t, name, eq], es, rfl⟩
  | declareFunction =>
    obtain ⟨-, -, -, rfl, -⟩ := h
    exact List.forall_mem_singleton.mpr List.infix_rfl
  | block =>
    obtain ⟨t, c, rfl, -⟩ := h
    exact fun row hrow => (List.infix_of_mem_flatten hrow).trans ⟨[t], [c], rfl⟩
  | conditional _ _ _ e =>
    cases e with
    | none =>
      obtain ⟨t, cs, u, us, rfl, rfl, -⟩ := h
      exact List.forall_mem_cons.mpr
        ⟨⟨[t], u :: us, by simp⟩, List.forall_mem_singleton.mpr ⟨t :: cs ++ [u], [], by simp⟩⟩
    | some =>
      obtain ⟨t, cs, u, us, v, vs, rfl, rfl, -⟩ := h
      refine List.forall_mem_cons.mpr ⟨⟨[t], u :: us ++ v :: vs, by simp⟩, ?_⟩
      exact List.forall_mem_cons.mpr ⟨⟨t :: cs ++ [u], v :: vs, by simp⟩,
        List.forall_mem_singleton.mpr ⟨t :: cs ++ u :: us ++ [v], [], by simp⟩⟩
  | loop =>
    obtain ⟨t, cs, u, us, rfl, rfl, -⟩ := h
    exact List.forall_mem_cons.mpr
      ⟨⟨[t], u :: us, by simp⟩, List.forall_mem_singleton.mpr ⟨t :: cs ++ [u], [], by simp⟩⟩
  | ret =>
    obtain ⟨t, es, rfl, -⟩ := h
    exact fun row hrow => (List.infix_of_mem_flatten hrow).trans ⟨[t], es, rfl⟩
  | hole => exact h.elim

theorem exists_row {rows : List (List Token)} {ns : List Node}
    (h : List.Forall₂ Supplied rows ns) {n : Node} (hn : n ∈ ns) : ∃ row ∈ rows, n.Supplied row := by
  induction h with
  | nil => cases hn
  | cons h _ ih =>
    rcases List.mem_cons.mp hn with rfl | hn
    · exact ⟨_, List.mem_cons_self, h⟩
    · obtain ⟨row, hrow, hn⟩ := ih hn
      exact ⟨row, List.mem_cons_of_mem _ hrow, hn⟩

theorem Supplied.child {n k : Node} {ts : List Token} (h : n.Supplied ts) (hk : k ∈ n.children) :
    ∃ row, row <:+: ts ∧ k.Supplied row := by
  cases h with
  | node hgroup hmarked hrows =>
    obtain ⟨row, hrow, hk⟩ := exists_row hrows hk
    exact ⟨row, (hmarked.contains row hrow).trans hgroup.contains, hk⟩

theorem Below.supplied {n m : Node} {ts : List Token} (hn : n.Below m) (h : m.Supplied ts) :
    ∃ row, row <:+: ts ∧ n.Supplied row := by
  induction hn generalizing ts with
  | single hk => exact h.child hk
  | tail _ hk ih =>
    obtain ⟨row, hrow, hk⟩ := h.child hk
    obtain ⟨row', hrow', hn⟩ := ih hk
    exact ⟨row', hrow'.trans hrow, hn⟩

end Node

namespace Program

variable {room : Nat} {N : Int} {ts : List Token} {p : Program}

theorem derives_takeWhile (h : ofTokens room N ⟨ts, none⟩ = .ok p) :
    Derives false .declarations (ts.takeWhile (·.kind ≠ .endOfInput)) p.statements := by
  have hts : ∀ t ∈ ts.takeWhile (·.kind ≠ .endOfInput), t.kind ≠ .endOfInput := by
    intro t ht
    simpa using List.mem_takeWhile_imp ht
  obtain ⟨eof, heof, c, hc, hfaces⟩ : ∃ eof : Token, eof.kind = .endOfInput ∧
      ∃ c, Cursor.ofStream ⟨ts, none⟩ = .ok c ∧
        c.Faces (ts.takeWhile (·.kind ≠ .endOfInput)) eof := by
    have hsplit := List.takeWhile_append_dropWhile (p := fun t => t.kind ≠ .endOfInput) (l := ts)
    cases hrest : ts.dropWhile (·.kind ≠ .endOfInput) with
    | nil =>
      rw [hrest, List.append_nil] at hsplit
      rw [hsplit]
      exact ⟨_, Token.kind_endOf ts, Cursor.ofStream_faces_endOf ts⟩
    | cons eof junk =>
      have heof : eof.kind = .endOfInput := by
        have := List.head?_dropWhile_not (fun t : Token => decide (t.kind ≠ .endOfInput)) ts
        rw [hrest] at this
        simpa using this
      rw [hrest] at hsplit
      have hfaces : ∃ c, Cursor.ofStream
          ⟨ts.takeWhile (·.kind ≠ .endOfInput) ++ eof :: junk, none⟩ = .ok c ∧
            c.Faces (ts.takeWhile (·.kind ≠ .endOfInput)) eof := Cursor.ofStream_faces heof
      rw [hsplit] at hfaces
      exact ⟨eof, heof, hfaces⟩
  obtain ⟨c', -, d, hc', -, -, hd, -⟩ := declarations_of_ofTokens h
  obtain rfl := Except.ok.inj (hc.symm.trans hc')
  exact derives_of_declarations hts heof hfaces hd

/-- Every node below the root of a parsed tree has the place of a token, which its sort fixes, among
the tokens that supply the node. -/
theorem ofTokens_marked (h : ofTokens room N ⟨ts, none⟩ = .ok p) :
    let us := ts.takeWhile (·.kind ≠ .endOfInput)
    p.node.Supplied us ∧
      ∀ n : Node, n.Below p.node → ∃ vs rows, vs <:+: us ∧ n.Marked vs rows ∧
        List.Forall₂ Node.Supplied rows n.children := by
  intro us
  obtain ⟨rows, hrows, hsupplied⟩ := (derives_takeWhile h).supplied
  have hroot : p.node.Supplied us := .of_marked ⟨hrows, rfl⟩ hsupplied
  refine ⟨hroot, fun n hn => ?_⟩
  obtain ⟨row, hrow, hn⟩ := hn.supplied hroot
  cases hn with
  | node hgroup hmarked hrows => exact ⟨_, _, hgroup.contains.trans hrow, hmarked, hrows⟩

open Token in
def callOfCall : List Token :=
  [inFirstLine .identifier "f" 1, inFirstLine (.symbol .leftParen) "(" 2,
    inFirstLine (.symbol .rightParen) ")" 3, inFirstLine (.symbol .leftParen) "(" 4,
    inFirstLine (.symbol .minus) "-" 5, inFirstLine .identifier "x" 6,
    inFirstLine (.symbol .rightParen) ")" 7]

set_option maxRecDepth 2000 in
theorem ofTokens_callOfCall : ofTokens 20 4 ⟨callOfCall, none⟩ =
    .ok ⟨[.expression (some ⟨1, 4⟩) (.call (some ⟨1, 4⟩)
      (.call (some ⟨1, 2⟩) (.name (some ⟨1, 1⟩) "f") [])
      [.unary (some ⟨1, 5⟩) "-" (.name (some ⟨1, 6⟩) "x")])]⟩ :=
  rfl

theorem ofTokens_marked_callOfCall :
    let inner : Node := .call (some ⟨1, 2⟩) (.name (some ⟨1, 1⟩) "f") []
    (∃ p, ofTokens 20 4 ⟨callOfCall, none⟩ = .ok p ∧ inner.Below p.node) ∧
      ∃ vs rows, vs <:+: callOfCall ∧ inner.Marked vs rows ∧
        List.Forall₂ Node.Supplied rows inner.children := by
  intro inner
  have hbelow : inner.Below (.program (some .start) [.expression (some ⟨1, 4⟩)
      (.call (some ⟨1, 4⟩) inner [.unary (some ⟨1, 5⟩) "-" (.name (some ⟨1, 6⟩) "x")])]) :=
    .tail (.tail (.single List.mem_cons_self) List.mem_cons_self) List.mem_cons_self
  exact ⟨⟨_, ofTokens_callOfCall, hbelow⟩, (ofTokens_marked ofTokens_callOfCall).2 inner hbelow⟩

end Program

end Scriptlet
