import Scriptlet.Evaluation.Node
import Scriptlet.Syntax.Grammar
import Scriptlet.Text.Integer

/-!
Sessions: sources run one after another on one machine, each by itself or against a root scope
that keeps its bindings.

A limit can be left blank. It then stands at zero, so that whatever it counts goes over it at
once, and to go over it is a failure of the session and no error of the source.
-/

namespace Scriptlet

inductive Event
  | reserving (room : Int)
  | running (chars : Nat)
  | parsed (statements : Nat)
  | evaluated (steps : Nat)

structure Session where
  limits : Limits
  blank : List Limit
  machine : Machine
  globals : Option Scope
  events : Array Event

abbrev SessionM := ExceptT Failure (StateM Session)

namespace Session

def reserve (limits : Limits) : Int :=
  limits.maxDepth * 50 + 1000

/-- The frames that the host's stack is allowed, of which a thousand are there in any case. -/
def frames (limits : Limits) : Int :=
  max 1000 (reserve limits)

def maxReserve : Int := 2147483647

def preparation (limits : Limits) : Array Event :=
  let room := reserve limits
  if 1000 < room && Text.isWritable room then #[.reserving room] else #[]

def start (limits : Limits) (blank : List Limit) (clock : Clock) : Session :=
  ⟨limits, blank, .initial clock, none, preparation limits⟩

def obstacle? (s : Session) : Option Failure :=
  let room := reserve s.limits
  if .calls ∈ s.blank then some (.blankLimit .calls)
  else if room ≤ maxReserve then none
  else if Text.isWritable room then some .reserveTooLarge
  else some .reserveTooLong

def parseFailure (s : Session) (e : ParseError) : Failure :=
  match e with
  | .nesting .. => if .nesting ∈ s.blank then .blankLimit .nesting else e.failure
  | _ => e.failure

def stopFailure (s : Session) (stop : Stop) : Failure :=
  match stop with
  | .error (.stepLimit _) _ => if .steps ∈ s.blank then .blankLimit .steps else stop.failure
  | _ => stop.failure

def describe (s : Session) : String :=
  let steps := s.limits.maxSteps.elim "None" toString
  s!"<Interpreter max_depth={s.limits.maxDepth} max_steps={steps}>"

def takeOutput (s : Session) : String × Session :=
  (s.machine.output, { s with machine := { s.machine with output := "" } })

def takeEvents (s : Session) : Array Event × Session :=
  (s.events, { s with events := #[] })

def reset (s : Session) : Session :=
  { s with globals := none }

def record (e : Event) : SessionM Unit :=
  modify fun s => { s with events := s.events.push e }

def root : SessionM Scope := do
  let s ← get
  match s.globals with
  | some scope => return scope
  | none =>
    let (scope, machine) := s.machine.openRoot
    set { s with machine, globals := some scope }
    return scope

def newRoot : SessionM Scope :=
  modifyGet fun s =>
    let (scope, machine) := s.machine.openRoot
    (scope, { s with machine })

def evaluation {α : Type} (e : Evaluation α) : SessionM α := do
  let s ← get
  let (result, machine) := e s.machine
  set { s with machine }
  match result with
  | .ok a => return a
  | .error stop => throw (s.stopFailure stop)

def parse (source : String) : SessionM Program := do
  let s ← get
  match Program.ofTokens s.limits.grammarRoom s.limits.maxNesting (.ofSource source) with
  | .ok p =>
    record (.parsed p.statements.length)
    return p
  | .error e => throw (s.parseFailure e)

/-- Parses and runs a source in the scope that `scope` gives, which is asked for after parsing. -/
def runWith (scope : SessionM Scope) (source : String) : SessionM Value := do
  record (.running source.length)
  let p ← parse source
  let scope ← scope
  let limits := (← get).limits
  let v ← evaluation (Program.run limits p.statements scope)
  record (.evaluated (← get).machine.steps)
  return v

def run (source : String) : SessionM Value :=
  runWith newRoot source

def runKept (source : String) : SessionM Value := do
  let scope ← root
  runWith (pure scope) source

def runLast (source : String) : SessionM Value := do
  let forget : SessionM Unit := modify reset
  let v ← tryCatch (runKept source) fun e => do forget; throw e
  forget
  return v

def lookup (x : String) : SessionM Value := do
  let scope ← root
  evaluation (Evaluation.lookup scope x)

def names : SessionM String := do
  let scope ← root
  return (← get).machine.store.describe scope

end Session

end Scriptlet
