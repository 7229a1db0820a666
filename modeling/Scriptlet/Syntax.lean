import Scriptlet.Position

/-!
Syntax trees and the values that programs compute. The two are one family: a literal holds a
value, and a function value holds the definition that it came from.
-/

namespace Scriptlet

abbrev Address := Nat

abbrev Scope := List Address

inductive Builtin
  | print | str | clock
  deriving DecidableEq, Inhabited

namespace Builtin

def all : List Builtin :=
  [print, str, clock]

def name : Builtin → String
  | print => "print" | str => "str" | clock => "clock"

def arity : Builtin → Nat
  | print | str => 1
  | clock => 0

def ofName? (s : String) : Option Builtin :=
  all.find? (·.name = s)

end Builtin

/-- What is missing where a tree built by hand has a hole. -/
inductive HoleSort
  | node | expression | statement
  deriving DecidableEq, Inhabited

def HoleSort.name : HoleSort → String
  | node => "Node" | expression => "Expression" | statement => "Statement"

mutual

/-- A node of a syntax tree. A position is where a diagnostic points: the operator of an
operation, the parenthesis of a call, otherwise the first token. The types do not tell
expressions from statements, so trees built by hand may mix them. -/
inductive Node
  | literal (pos : Option Position) (value : Value)
  | name (pos : Option Position) (name : String)
  | binary (pos : Option Position) (op : String) (left right : Node)
  | unary (pos : Option Position) (op : String) (operand : Node)
  | assign (pos : Option Position) (name : String) (value : Node)
  | call (pos : Option Position) (callee : Node) (args : List Node)
  | function (definition : Definition)
  | program (pos : Option Position) (statements : List Node)
  | expression (pos : Option Position) (body : Node)
  | declareVar (pos : Option Position) (name : String) (value : Node)
  | declareFunction (pos : Option Position) (definition : Definition)
  | block (pos : Option Position) (statements : List Node)
  | conditional (pos : Option Position) (condition thenBranch : Node) (elseBranch : Option Node)
  | loop (pos : Option Position) (condition body : Node)
  | ret (pos : Option Position) (value : Option Node)
  | hole (pos : Option Position) (sort : HoleSort)

structure Definition where
  pos : Option Position
  name : Option String
  params : List String
  bodyPos : Option Position
  body : List Node

/-- What a program computes with. A function value is one evaluation of a definition, known by
its number; so is an undefined number, the result of an operation such as infinity less infinity.
`returned` is the result of a return statement on its way out to the call. -/
inductive Value
  | nil
  | bool (b : Bool)
  | number (x : Float)
  | undefined (id : Nat)
  | string (s : String)
  | function (id : Nat) (definition : Definition) (scope : Scope)
  | builtin (b : Builtin)
  | returned (value : Value)

end

instance : Inhabited Value := ⟨.nil⟩

instance : Inhabited Node := ⟨.hole none .node⟩

def Definition.shownName (d : Definition) : String :=
  match d.name with
  | none | some "" => "anonymous"
  | some n => n

def Definition.arity (d : Definition) : Nat :=
  d.params.length

def Node.pos : Node → Option Position
  | .literal p _ | .name p _ | .binary p _ _ _ | .unary p _ _ | .assign p _ _ | .call p _ _
  | .program p _ | .expression p _ | .declareVar p _ _ | .declareFunction p _ | .block p _
  | .conditional p _ _ _ | .loop p _ _ | .ret p _ | .hole p _ => p
  | .function d => d.pos

end Scriptlet
