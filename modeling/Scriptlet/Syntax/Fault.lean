import Scriptlet.Diagnostic

namespace Scriptlet

inductive Slot
  | variableName | variableValue | variableEnd
  | conditionThen | conditionDo
  | returnEnd | expressionEnd
  | blockStart | blockEnd
  | groupEnd | argumentsEnd
  | parametersStart | parameter | parametersEnd
  deriving DecidableEq, Inhabited

def Slot.describe : Slot → String
  | variableName => "after 'var'"
  | variableValue => "after variable name"
  | variableEnd => "after variable declaration"
  | conditionThen => "after if condition"
  | conditionDo => "after loop condition"
  | returnEnd => "after return value"
  | expressionEnd | groupEnd => "after expression"
  | blockStart => "to open block"
  | blockEnd => "after block"
  | argumentsEnd => "after arguments"
  | parametersStart => "before parameters"
  | parameter => "as parameter name"
  | parametersEnd => "after parameters"

inductive SyntaxFault
  | missing (kind : TokenKind) (slot : Slot) (found : Token)
  | noExpression (found : Token)
  | returnOutside
  | duplicateParameter (name : String)
  | invalidTarget

namespace SyntaxFault

def message : SyntaxFault → String
  | missing kind slot found =>
    s!"Expected {kind.describe} {slot.describe}, got {found.describe}."
  | noExpression found => s!"Expected expression, got {found.describe}."
  | returnOutside => "Cannot return from top-level code."
  | duplicateParameter name => s!"Duplicate parameter '{name}'."
  | invalidTarget => "Invalid assignment target."

def expected : SyntaxFault → List TokenKind
  | missing kind _ _ => [kind]
  | noExpression _ => [.number, .string, .identifier, .symbol .leftParen]
  | invalidTarget => [.identifier]
  | returnOutside | duplicateParameter _ => []

def found : SyntaxFault → TokenKind
  | missing _ _ found | noExpression found => found.kind
  | returnOutside => .keyword .returnWord
  | duplicateParameter _ => .identifier
  | invalidTarget => .symbol .equal

end SyntaxFault

inductive ParseError
  | scan (e : ScanError)
  | fault (fault : SyntaxFault) (pos : Position)
  | nesting (limit : Int) (pos : Position)
  | exhausted (pos : Position)

def ParseError.failure : ParseError → Failure
  | .scan e => e.failure
  | .fault f pos => .diagnosed (.placed (.syntactic f.expected f.found) f.message pos)
  | .nesting limit pos =>
    .diagnosed (.placed .resource s!"Maximum nesting depth of {limit} exceeded." pos)
  | .exhausted pos => .sourceTooDeep (.placed .resource "Maximum nesting depth exceeded." pos)

end Scriptlet
