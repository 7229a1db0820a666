import Scriptlet.Value

namespace Scriptlet

def bracketed (words : List String) : String :=
  "(" ++ " ".intercalate words ++ ")"

def outlined (name : String) (parts : List String) : String :=
  bracketed (name :: parts)

def Value.outline : Value → String
  | .string s => outlined "Literal" [Text.quoted s]
  | v => outlined "Literal" [v.text]

def Definition.outlineName (d : Definition) : String :=
  match d.name with
  | none | some "" => "<anonymous>"
  | some n => n

mutual

def Node.outline : Node → String
  | .literal _ v => v.outline
  | .name _ x => outlined "Identifier" [x]
  | .binary _ op a b => outlined "BinaryOp" [op, a.outline, b.outline]
  | .unary _ op a => outlined "UnaryOp" [op, a.outline]
  | .assign _ x a => outlined "Assignment" [x, a.outline]
  | .call _ f args => outlined "FunctionCall" (f.outline :: Node.outlines args)
  | .function d => d.outline
  | .program _ ss => "\n".intercalate (Node.outlines ss)
  | .expression _ a => a.outline
  | .declareVar _ x a => outlined "VarDeclaration" [x, a.outline]
  | .declareFunction _ d => d.outline
  | .block _ ss => outlined "Block" (Node.outlines ss)
  | .conditional _ c t e => outlined "Conditional" (c.outline :: t.outline :: Node.outlineOption e)
  | .loop _ c b => outlined "Loop" [c.outline, b.outline]
  | .ret _ v => outlined "Return" (Node.outlineOption v)
  | .hole _ s => s.name ++ "()"
termination_by structural n => n

def Definition.outline : Definition → String
  | ⟨p, n, ps, q, b⟩ =>
    outlined "FunctionDefinition"
      [Definition.outlineName ⟨p, n, ps, q, b⟩, bracketed ps,
        outlined "Block" (Node.outlines b)]
termination_by structural d => d

def Node.outlines : List Node → List String
  | [] => []
  | a :: as => a.outline :: Node.outlines as
termination_by structural ns => ns

def Node.outlineOption : Option Node → List String
  | none => []
  | some a => [a.outline]
termination_by structural n => n

end

/-- The outline of a node, if the host's stack has room for that many nodes inside each other. -/
def Node.outlineWithin : Nat → Node → Option String
  | 0, _ => none
  | room + 1, node =>
    let show? := outlineWithin room
    match node with
    | .literal _ v => return v.outline
    | .name _ x => return outlined "Identifier" [x]
    | .binary _ op a b => return outlined "BinaryOp" [op, ← show? a, ← show? b]
    | .unary _ op a => return outlined "UnaryOp" [op, ← show? a]
    | .assign _ x a => return outlined "Assignment" [x, ← show? a]
    | .call _ f args => return outlined "FunctionCall" ((← show? f) :: (← args.mapM show?))
    | .function d => do
      let body ← show? (.block d.bodyPos d.body)
      return outlined "FunctionDefinition" [d.outlineName, bracketed d.params, body]
    | .program _ ss => return "\n".intercalate (← ss.mapM show?)
    | .expression _ a => show? a
    | .declareVar _ x a => return outlined "VarDeclaration" [x, ← show? a]
    | .declareFunction _ d => show? (.function d)
    | .block _ ss => return outlined "Block" (← ss.mapM show?)
    | .conditional _ c t e =>
      return outlined "Conditional" ((← show? c) :: (← show? t) :: (← e.toList.mapM show?))
    | .loop _ c b => return outlined "Loop" [← show? c, ← show? b]
    | .ret _ v => return outlined "Return" (← v.toList.mapM show?)
    | .hole _ s => return s.name ++ "()"

end Scriptlet
