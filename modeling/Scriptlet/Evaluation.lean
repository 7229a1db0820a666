import Scriptlet.Diagnostic
import Scriptlet.Store
import Scriptlet.Value

namespace Scriptlet

/-- What fits on the stack of the host: rules of the grammar, nodes under evaluation and nodes that are
shown, each inside the other. Results are about every stack. The one that is taken where none is given
is no host's in particular, and only wide enough for ordinary programs. -/
structure Stack where
  grammarRoom : Nat := 10000
  evaluationRoom : Nat := 20000
  outlineRoom : Nat := 10000

structure Limits extends Stack where
  maxDepth : Int := 256
  maxSteps : Option Int := none
  maxNesting : Int := 128
  /-- How often a loop may turn. -/
  patience : Nat := 4611686018427387904

inductive RuntimeFault
  | undefinedName (name : String)
  | operands (op : String) (left right : ValueKind)
  | operand (op : String) (found : ValueKind)
  | divisionByZero
  | notCallable (found : ValueKind)
  | arity (expected found : Nat)
  | condition (found : ValueKind)
  | callDepth (limit : Int)
  | stepLimit (limit : Int)
  | recursion
  | returnOutside
  | hole (sort : HoleSort)

namespace RuntimeFault

def kind : RuntimeFault → ErrorKind
  | undefinedName name => .undefinedName name
  | operands .. | operand .. | notCallable _ | condition _ => .operandType
  | divisionByZero => .division
  | arity expected found => .arity expected found
  | callDepth _ | stepLimit _ | recursion => .resource
  | returnOutside | hole _ => .runtime

def message : RuntimeFault → String
  | undefinedName name => s!"Undefined name '{name}'."
  | operands op left right =>
    s!"Operands to '{op}' must be numbers, got {left.name} and {right.name}."
  | operand op found => s!"Operand to '{op}' must be a number, got {found.name}."
  | divisionByZero => "Division by zero."
  | notCallable found => s!"Can only call functions, got {found.name}."
  | arity expected found => s!"Expected {expected} arguments but got {found}."
  | condition found => s!"Condition must be a boolean, got {found.name}."
  | callDepth limit => s!"Maximum call depth of {limit} exceeded."
  | stepLimit limit => s!"Step limit of {limit} exceeded."
  | recursion => "Maximum recursion depth exceeded."
  | returnOutside => "Cannot return from top-level code."
  | hole sort => s!"Cannot evaluate {sort.name}."

def diagnose (f : RuntimeFault) (pos : Option Position) : Diagnostic :=
  .placed f.kind f.message pos

end RuntimeFault

inductive Stop
  | error (fault : RuntimeFault) (pos : Option Position)
  | unknownOperator (op : String)
  | exhausted
  | endless

namespace Stop

def locate (pos : Option Position) : Stop → Stop
  | error fault none => error fault pos
  | s => s

def settle (pos : Option Position) : Stop → Stop
  | exhausted => error .recursion pos
  | s => s

def failure : Stop → Failure
  | error .recursion pos => .callsTooDeep (RuntimeFault.recursion.diagnose pos)
  | error fault pos => .diagnosed (fault.diagnose pos)
  | unknownOperator op => .unknownOperator op
  | exhausted => .callsTooDeep (RuntimeFault.recursion.diagnose none)
  | endless => .endless

end Stop

/-- The readings of the clock that are still to come, in seconds. -/
structure Clock where
  reading : Nat → Float

namespace Clock

/-- A clock that stands still. -/
instance : Coe Float Clock :=
  ⟨fun x => ⟨fun _ => x⟩⟩

def drop (c : Clock) (n : Nat) : Clock :=
  ⟨fun k => c.reading (n + k)⟩

theorem drop_zero (c : Clock) : c.drop 0 = c := by
  unfold drop
  simp only [Nat.zero_add]

theorem drop_drop (c : Clock) (n k : Nat) : (c.drop n).drop k = c.drop (n + k) := by
  unfold drop
  simp only [Nat.add_assoc]

end Clock

structure Machine where
  store : Store
  output : String
  steps : Nat
  depth : Nat
  /-- How many values known by their number have been made; the next one gets this number. -/
  made : Nat
  clock : Clock

namespace Machine

def initial (clock : Clock) : Machine :=
  ⟨.empty, "", 0, 0, 0, clock⟩

def openRoot (m : Machine) : Scope × Machine :=
  ([m.store.fresh],
    { m with store := m.store.push (Builtin.all.map fun b => (b.name, .builtin b)) })

def openEmpty (m : Machine) : Scope × Machine :=
  ([m.store.fresh], { m with store := m.store.push [] })

end Machine

abbrev Evaluation := ExceptT Stop (StateM Machine)

namespace Evaluation

def fail {α : Type} (fault : RuntimeFault) : Evaluation α :=
  throw (.error fault none)

def ofExcept {α : Type} (r : Except Stop α) : Evaluation α :=
  fun m => (r, m)

def lookup (scope : Scope) (x : String) : Evaluation Value := fun m =>
  match m.store.get? scope x with
  | some v => (.ok v, m)
  | none => (.error (.error (.undefinedName x) none), m)

def assign (scope : Scope) (x : String) (v : Value) : Evaluation Unit := fun m =>
  match m.store.assign? scope x v with
  | some store => (.ok (), { m with store })
  | none => (.error (.error (.undefinedName x) none), m)

def define (scope : Scope) (x : String) (v : Value) : Evaluation Unit :=
  modify fun m => { m with store := m.store.define scope x v }

/-- Binds a name. A declaration that was built by hand may have none. No tree can look up what is bound to
no name, so that nothing is bound then; a store that kept such a binding would only be described otherwise. -/
def defineNamed (scope : Scope) (x : Option String) (v : Value) : Evaluation Unit :=
  match x with
  | none => return ()
  | some x => define scope x v

def openChild (scope : Scope) : Evaluation Scope :=
  modifyGet fun m => (m.store.fresh :: scope, { m with store := m.store.push [] })

def makeFunction (d : Definition) (scope : Scope) : Evaluation Value :=
  modifyGet fun m => (.function m.made d scope, { m with made := m.made + 1 })

def identify (v : Value) : Evaluation Value :=
  match v with
  | .number x =>
    if x.isNaN then modifyGet fun m => (.undefined m.made, { m with made := m.made + 1 })
    else return v
  | _ => return v

def print (line : String) : Evaluation Unit :=
  modify fun m => { m with output := m.output ++ line ++ "\n" }

def readClock : Evaluation Float :=
  modifyGet fun m => (m.clock.reading 0, { m with clock := m.clock.drop 1 })

def countStep (maxSteps : Option Int) (pos : Option Position) : Evaluation Unit := fun m =>
  let m := { m with steps := m.steps + 1 }
  match maxSteps with
  | none => (.ok (), m)
  | some limit =>
    if limit < m.steps then (.error (.error (.stepLimit limit) pos), m) else (.ok (), m)

def mapStop {α : Type} (f : Stop → Stop) (e : Evaluation α) : Evaluation α := fun m =>
  let (result, m) := e m
  (result.mapError f, m)

def asCall {α : Type} (maxDepth : Int) (e : Evaluation α) : Evaluation α := fun m =>
  if maxDepth ≤ m.depth then (.error (.error (.callDepth maxDepth) none), m)
  else
    let (result, m) := e { m with depth := m.depth + 1 }
    (result, { m with depth := m.depth - 1 })

def repeatUntil (turn : Evaluation (Option Value)) : Nat → Evaluation Value
  | 0 => throw .endless
  | n + 1 => fun m =>
    match turn m with
    | (.ok none, m') => repeatUntil turn n m'
    | (.ok (some v), m') => (.ok v, m')
    | (.error stop, m') => (.error stop, m')

end Evaluation

/-- A monad that trees are evaluated in: it does what evaluations do, and more perhaps. -/
class Carrier (M : Type → Type) [Monad M] where
  act {α : Type} : Evaluation α → M α
  mapStop {α : Type} : (Stop → Stop) → M α → M α
  asCall {α : Type} : Int → M α → M α
  repeatUntil : M (Option Value) → Nat → M Value

@[always_inline]
instance : Carrier Evaluation where
  act e := e
  mapStop := Evaluation.mapStop
  asCall := Evaluation.asCall
  repeatUntil := Evaluation.repeatUntil

end Scriptlet
