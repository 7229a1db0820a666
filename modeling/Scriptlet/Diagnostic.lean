import Scriptlet.Scan
import Scriptlet.Text.Quoted
import Scriptlet.Text.Utf8

namespace Scriptlet

inductive ErrorKind
  | general
  | lexical (char : Option String)
  | syntactic (expected : List TokenKind) (found : Option TokenKind)
  | runtime
  | undefinedName (name : String)
  | operandType
  | division
  | arity (expected found : Int)
  | resource

namespace ErrorKind

def label : ErrorKind → String
  | general => "Error"
  | lexical _ => "LexError"
  | syntactic .. => "ParseError"
  | runtime => "RuntimeError"
  | undefinedName _ => "UndefinedNameError"
  | operandType => "TypeError"
  | division => "ArithmeticError"
  | arity .. => "ArityError"
  | resource => "ResourceLimitError"

def isRuntime : ErrorKind → Bool
  | general | lexical _ | syntactic .. => false
  | _ => true

end ErrorKind

structure Diagnostic where
  kind : ErrorKind
  detail : String
  line : Option Int
  column : Option Int

namespace Diagnostic

def placed (kind : ErrorKind) (detail : String) (pos : Option Position) : Diagnostic :=
  ⟨kind, detail, pos.map (·.line), pos.map (·.column)⟩

def undefinedName (name : String) (pos : Option Position) : Diagnostic :=
  placed (.undefinedName name) s!"Undefined name '{name}'." pos

def arity (expected found : Int) (pos : Option Position) : Diagnostic :=
  placed (.arity expected found) s!"Expected {expected} arguments but got {found}." pos

def locate (d : Diagnostic) (line column : Option Int) : Diagnostic :=
  if d.line.isNone then { d with line, column } else d

def coordinate (n : Option Int) : String :=
  n.elim "None" toString

def format (d : Diagnostic) : String :=
  if d.line.isNone then s!"{d.kind.label}: {d.detail}"
  else s!"{d.kind.label} at line {coordinate d.line}, column {coordinate d.column}: {d.detail}"

end Diagnostic

namespace LexicalFault

def message : LexicalFault → String
  | unterminatedString => "Unterminated string."
  | invalidEscape c => s!"Invalid escape sequence '\\{c}'."
  | malformedHex _ => "Malformed hexadecimal literal."
  | unexpected c => s!"Unexpected character '{c}'."

def char? : LexicalFault → Option Char
  | unterminatedString => none
  | invalidEscape c | unexpected c => some c
  | malformedHex next => next

def diagnose (f : LexicalFault) (pos : Position) : Diagnostic :=
  .placed (.lexical (f.char?.map Char.toString)) f.message pos

end LexicalFault

inductive Limit
  | calls | steps | nesting
  deriving DecidableEq, Inhabited

namespace Limit

def all : List Limit :=
  [calls, steps, nesting]

def name : Limit → String
  | calls => "calls" | steps => "steps" | nesting => "nesting"

end Limit

inductive Failure
  | diagnosed (d : Diagnostic)
  | sourceTooDeep (d : Diagnostic)
  | callsTooDeep (d : Diagnostic)
  | numberTooLarge
  | unknownOperator (op : String)
  | undecodable (e : Text.Utf8Error)
  | reserveTooLarge
  | reserveTooLong
  | blankLimit (limit : Limit)
  /-- The host's stack ran out where nothing catches it. -/
  | exhausted
  | endless

namespace Failure

def diagnostic? : Failure → Option Diagnostic
  | diagnosed d | sourceTooDeep d | callsTooDeep d => some d
  | _ => none

def message : Failure → String
  | diagnosed d | sourceTooDeep d | callsTooDeep d => d.detail
  | numberTooLarge => "int too large to convert to float"
  | unknownOperator op => Text.quoted op
  | undecodable e => e.message
  | reserveTooLarge => "The limit on calls is too large."
  | reserveTooLong => "The limit on calls is too long to be written."
  | blankLimit limit => s!"The limit on {limit.name} is blank."
  | exhausted => "maximum recursion depth exceeded"
  | endless => "The loop does not end."

end Failure

def ScanError.failure : ScanError → Failure
  | .fault f pos => .diagnosed (f.diagnose pos)
  | .overflow => .numberTooLarge

end Scriptlet
