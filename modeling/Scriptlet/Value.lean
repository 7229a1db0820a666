import Scriptlet.Syntax
import Scriptlet.Number.Text
import Scriptlet.Text.Quoted

namespace Scriptlet

inductive ValueKind
  | nil | boolean | number | string | function | returned
  deriving DecidableEq, Inhabited

def ValueKind.name : ValueKind → String
  | nil => "nil" | boolean => "boolean" | number => "number" | string => "string"
  | function => "function" | returned => "ReturnSignal"

namespace Value

def kind : Value → ValueKind
  | .nil => .nil
  | .bool _ => .boolean
  | .number _ | .undefined _ => .number
  | .string _ => .string
  | .function .. | .builtin _ => .function
  | .returned _ => .returned

def number? : Value → Option Float
  | .number x => some x
  | .undefined _ => some Number.undefined
  | _ => none

def isCallable : Value → Bool
  | .function .. | .builtin _ => true
  | _ => false

def isTruthy : Value → Bool
  | .nil => false
  | .bool b => b
  | _ => true

def sameKind : Value → Value → Bool
  | .nil, .nil | .bool _, .bool _ | .string _, .string _
  | .number _, .number _ | .number _, .undefined _ | .undefined _, .number _
  | .undefined _, .undefined _
  | .function .., .function .. | .builtin _, .builtin _ | .returned _, .returned _ => true
  | _, _ => false

def bit (b : Bool) : Float :=
  if b then 1 else 0

/-- Equality of the parts of two wholes. It counts true as one and false as zero. What is known by
its number, a function or an undefined number, equals only itself. -/
def alike : Value → Value → Bool
  | .nil, .nil => true
  | .bool a, .bool b => a == b
  | .bool a, .number y => bit a == y
  | .number x, .bool b => x == bit b
  | .number x, .number y => x == y
  | .undefined i, .undefined j => i == j
  | .string s, .string t => s == t
  | .function i _ _, .function j _ _ => i == j
  | .builtin a, .builtin b => a == b
  | .returned v, .returned w => v.alike w
  | _, _ => false

/-- Equality as programs see it: values of different kinds are never equal, and an undefined number
is not even equal to itself. -/
def equal : Value → Value → Bool
  | .undefined _, .undefined _ => false
  | a, b => a.sameKind b && a.alike b

def inner : Value → String
  | .nil => "None"
  | .bool b => if b then "True" else "False"
  | .number x => Number.literal x
  | .undefined _ => Number.literal Number.undefined
  | .string s => Text.quoted s
  | .function _ d _ => s!"<fn {d.shownName}>"
  | .builtin _ => "<native fn>"
  | .returned v => s!"ReturnSignal(value={v.inner})"

def text : Value → String
  | .nil => "nil"
  | .bool b => if b then "true" else "false"
  | .number x => Number.display x
  | .string s => s
  | v => v.inner

end Value

end Scriptlet
