import Scriptlet.Syntax.Cursor
import Scriptlet.Syntax

namespace Scriptlet

inductive Rule
  | declaration | statement | expression | assignment | unary
  deriving DecidableEq, Inhabited

namespace Grammar

open Scriptlet.Parser

def levels : List (List TokenKind) :=
  [[.keyword .orWord],
    [.keyword .andWord],
    [.symbol .equalEqual, .symbol .notEqual],
    [.symbol .less, .symbol .lessEqual, .symbol .greater, .symbol .greaterEqual],
    [.symbol .plus, .symbol .minus],
    [.symbol .star, .symbol .slash]]

def chainFrom (ops : List TokenKind) (operand : Parser Node) : Nat → Node → Parser Node
  | 0, _ => exhausted
  | n + 1, left => do
    if ops.contains (← currentKind) then
      let op ← take
      let right ← operand
      chainFrom ops operand n (.binary op.pos op.text left right)
    else return left

def chain (ops : List TokenKind) (operand : Parser Node) : Parser Node := do
  chainFrom ops operand (← read).length (← operand)

def endStatement (slot : Slot) : Parser Unit := do
  let kind ← currentKind
  if kind = .symbol .rightBrace ∨ kind = .endOfInput then return ()
  else
    let _ ← require (.symbol .semicolon) slot

def parameter (params : List String) : Parser String := do
  let t ← require .identifier .parameter
  if t.text ∈ params then fault (.duplicateParameter t.text) t.pos else return t.text

def parametersFrom : Nat → List String → Parser (List String)
  | 0, _ => exhausted
  | n + 1, params => do
    let p ← parameter params
    if ← accept (.symbol .comma) then parametersFrom n (params ++ [p])
    else return params ++ [p]

def parameterList : Parser (List String) := do
  if (← currentKind) = .symbol .rightParen then return []
  else parametersFrom (← read).length []

def parameters : Parser (List String) := do
  let _ ← require (.symbol .leftParen) .parametersStart
  let params ← parameterList
  let _ ← require (.symbol .rightParen) .parametersEnd
  return params

section

variable (recur : Rule → Parser Node)

def body : Parser (Position × List Node) := do
  let brace ← require (.symbol .leftBrace) .blockStart
  let statements ← nested do
    manyUntil [.symbol .rightBrace, .endOfInput] (recur .declaration) (← read).length []
  let _ ← require (.symbol .rightBrace) .blockEnd
  return (brace.pos, statements)

def definition (pos : Position) (name : Option String) : Parser Definition := do
  let params ← parameters
  let (bodyPos, statements) ← inFunction (body recur)
  return ⟨pos, name, params, bodyPos, statements⟩

def literal (value : Token → Value) : Parser Node := do
  let t ← take
  return .literal t.pos (value t)

def literalValue (t : Token) : Value :=
  match t.value with
  | none => .nil
  | some (.number x) => .number x
  | some (.string s) => .string s

def group : Parser Node := do
  let _ ← take
  let e ← recur .expression
  let _ ← require (.symbol .rightParen) .groupEnd
  return e

def primary : Parser Node := do
  let t ← current
  match t.kind with
  | .number | .string => literal literalValue
  | .keyword .trueWord => literal fun _ => .bool true
  | .keyword .falseWord => literal fun _ => .bool false
  | .keyword .nilWord => literal fun _ => .nil
  | .identifier =>
    let t ← take
    return .name t.pos t.text
  | .symbol .leftParen => group recur
  | .keyword .funWord =>
    let t ← take
    return .function (← definition recur t.pos none)
  | _ => fault (.noExpression t) t.pos

def arguments : Parser (List Node) := do
  if (← currentKind) = .symbol .rightParen then return []
  else manyCommas (recur .expression) (← read).length [← recur .expression]

def callsFrom : Nat → Node → Parser Node
  | 0, _ => exhausted
  | n + 1, callee => do
    if (← currentKind) = .symbol .leftParen then
      let paren ← take
      let args ← arguments recur
      let _ ← require (.symbol .rightParen) .argumentsEnd
      callsFrom n (.call paren.pos callee args)
    else return callee

def unary : Parser Node := do
  let kind ← currentKind
  if kind = .keyword .notWord ∨ kind = .symbol .minus then
    let op ← take
    return .unary op.pos op.text (← nested (recur .unary))
  else callsFrom recur (← read).length (← primary recur)

def assignment : Parser Node := do
  let target ← levels.foldr chain (recur .unary)
  if (← currentKind) = .symbol .equal then
    let equals ← take
    let value ← recur .assignment
    match target with
    | .name pos x => return .assign pos x value
    | _ => fault .invalidTarget equals.pos
  else return target

def elseBranch : Parser (Option Node) := do
  if ← accept (.keyword .elseWord) then some <$> recur .statement else return none

def conditional : Parser Node := do
  let keyword ← take
  let condition ← recur .expression
  let _ ← require (.keyword .thenWord) .conditionThen
  let thenBranch ← recur .statement
  return .conditional keyword.pos condition thenBranch (← elseBranch recur)

def loop : Parser Node := do
  let keyword ← take
  let condition ← recur .expression
  let _ ← require (.keyword .doWord) .conditionDo
  return .loop keyword.pos condition (← recur .statement)

def returnValue : Parser (Option Node) := do
  let kind ← currentKind
  if kind = .symbol .semicolon ∨ kind = .symbol .rightBrace ∨ kind = .endOfInput then return none
  else some <$> recur .expression

def returnStatement : Parser Node := do
  if (← read).inFunction then
    let keyword ← take
    let value ← returnValue recur
    endStatement .returnEnd
    return .ret keyword.pos value
  else
    let t ← current
    fault .returnOutside t.pos

def block : Parser Node := do
  let (pos, statements) ← body recur
  return .block pos statements

def expressionStatement : Parser Node := do
  let e ← recur .expression
  endStatement .expressionEnd
  return .expression e.pos e

def statement : Parser Node := do
  match ← currentKind with
  | .keyword .ifWord => conditional recur
  | .keyword .whileWord => loop recur
  | .keyword .returnWord => returnStatement recur
  | .symbol .leftBrace => block recur
  | _ => expressionStatement recur

def functionDeclaration : Parser Node := do
  let keyword ← take
  let name ← take
  return .declareFunction keyword.pos (← definition recur keyword.pos name.text)

def varDeclaration : Parser Node := do
  let keyword ← take
  let name ← require .identifier .variableName
  let _ ← require (.symbol .equal) .variableValue
  let value ← recur .expression
  endStatement .variableEnd
  return .declareVar keyword.pos name.text value

def declaration : Parser Node := do
  let kind ← currentKind
  if kind = .keyword .funWord ∧ (← nextKind) = .identifier then functionDeclaration recur
  else if kind = .keyword .varWord then varDeclaration recur
  else recur .statement

def expand : Rule → Parser Node
  | .declaration => declaration recur
  | .statement => nested (statement recur)
  | .expression => nested (recur .assignment)
  | .assignment => assignment recur
  | .unary => unary recur

end

end Grammar

/-- Parses a rule, with at most `room` rules inside each other. -/
def Rule.parse : Nat → Rule → Parser Node
  | 0, _ => Parser.exhausted
  | room + 1, rule => fun s c => Grammar.expand (parse room) rule s c

structure Program where
  statements : List Node

namespace Program

def node (p : Program) : Node :=
  .program (some .start) p.statements

def ofTokens (room : Nat) (maxNesting : Int) (s : TokenStream) : Except ParseError Program := do
  let c ← (Cursor.ofStream s).mapError .scan
  let length := s.tokens.length + 1
  let declarations := Parser.manyUntil [.endOfInput] (Rule.parse room .declaration) length []
  let (statements, _) ← declarations ⟨maxNesting, 0, false, length⟩ c
  return ⟨statements⟩

end Program

end Scriptlet
