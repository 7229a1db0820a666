import Scriptlet.Evaluation.Operator

/-!
Evaluation of syntax trees, in any monad that carries evaluations. Each construct evaluates its
parts through `recur`; `Node.evaluateWithin` ties the constructs together down to a bounded depth.
-/

namespace Scriptlet

namespace Evaluation

open Carrier (act)

section

variable {M : Type → Type} [Monad M] [Carrier M] (recur : Node → Scope → M Value)

@[specialize]
def all (scope : Scope) : List Node → M (List Value)
  | [] => return []
  | n :: ns => do
    let v ← recur n scope
    return v :: (← all scope ns)

@[specialize]
def sequence (scope : Scope) (last : Value) : List Node → M Value
  | [] => return last
  | n :: ns => do
    match ← recur n scope with
    | .returned v => return .returned v
    | v => sequence scope v ns

@[specialize]
def binary (op : String) (left right : Node) (scope : Scope) : M Value :=
  match op with
  | "and" => do
    if (← recur left scope).isTruthy then return .bool (← recur right scope).isTruthy
    else return .bool false
  | "or" => do
    if (← recur left scope).isTruthy then return .bool true
    else return .bool (← recur right scope).isTruthy
  | _ => do
    let a ← recur left scope
    let b ← recur right scope
    act do identify (← ofExcept (Operator.binary op a b))

@[specialize]
def condition (node : Node) (scope : Scope) : M Bool := do
  match ← recur node scope with
  | .bool b => return b
  | v => act (throw (.error (.condition v.kind) node.pos))

def bindAll (scope : Scope) : List (String × Value) → Evaluation Unit
  | [] => return ()
  | (x, v) :: rest => do
    define scope x v
    bindAll scope rest

@[specialize]
def callFunction (maxDepth : Int) (d : Definition) (scope : Scope) (args : List Value) :
    M Value :=
  Carrier.asCall maxDepth do
    let inner ← act (openChild scope)
    act (bindAll inner (d.params.zip args))
    match ← sequence recur inner .nil d.body with
    | .returned v => return v
    | _ => return .nil

def callBuiltin : Builtin → List Value → Evaluation Value
  | .print, v :: _ => do
    print v.text
    return .nil
  | .str, v :: _ => return .string v.text
  | .clock, _ => return .number (← readClock)
  | _, [] => return .nil

@[specialize]
def withArity (arity : Nat) (args : List Value) (e : M Value) : M Value :=
  if args.length = arity then e else act (fail (.arity arity args.length))

@[specialize]
def call (maxDepth : Int) (callee : Node) (args : List Node) (scope : Scope) : M Value := do
  match ← recur callee scope with
  | .function _ d closure =>
    let vs ← all recur scope args
    withArity d.arity vs (callFunction recur maxDepth d closure vs)
  | .builtin b =>
    let vs ← all recur scope args
    withArity b.arity vs (act (callBuiltin b vs))
  | v => act (fail (.notCallable v.kind))

@[specialize]
def turn (cond body : Node) (scope : Scope) : M (Option Value) := do
  if ← condition recur cond scope then
    match ← recur body (← act (openChild scope)) with
    | .returned v => return some (.returned v)
    | _ => return none
  else return some .nil

@[specialize]
def perform (limits : Limits) : Node → Scope → M Value
  | .literal _ v, _ => return v
  | .name _ x, scope => act (lookup scope x)
  | .binary _ op left right, scope => binary recur op left right scope
  | .unary _ op operand, scope => do
    let v ← recur operand scope
    act do identify (← ofExcept (Operator.unary op v))
  | .assign _ x value, scope => do
    let v ← recur value scope
    act (assign scope x v)
    return v
  | .call _ callee args, scope => call recur limits.maxDepth callee args scope
  | .function d, scope => act (makeFunction d scope)
  | .program _ statements, scope => sequence recur scope .nil statements
  | .expression _ body, scope => recur body scope
  | .declareVar _ x value, scope => do
    let v ← recur value scope
    act (define scope x v)
    return .nil
  | .declareFunction _ d, scope => do
    act do defineNamed scope d.name (← makeFunction d scope)
    return .nil
  | .block _ statements, scope => do sequence recur (← act (openChild scope)) .nil statements
  | .conditional _ cond thenBranch elseBranch, scope => do
    if ← condition recur cond scope then recur thenBranch scope
    else
      match elseBranch with
      | some e => recur e scope
      | none => return .nil
  | .loop _ cond body, scope => Carrier.repeatUntil (turn recur cond body scope) limits.patience
  | .ret _ none, _ => return .returned .nil
  | .ret _ (some value), scope => return .returned (← recur value scope)
  | .hole _ sort, _ => act (fail (.hole sort))

@[specialize]
def visit (limits : Limits) (node : Node) (scope : Scope) : M Value := do
  act (countStep limits.maxSteps node.pos)
  Carrier.mapStop (Stop.locate node.pos) (perform recur limits node scope)

end

end Evaluation

/-- Evaluates a node, with at most `room` nodes inside each other. Room counts nodes and not the frames
that they take on the host's stack, so that it runs out in front of a node and never inside of one. -/
def Node.evaluateWithin (limits : Limits) : Nat → Node → Scope → Evaluation Value
  | 0, _, _ => throw .exhausted
  | room + 1, node, scope => fun m =>
    Evaluation.visit (evaluateWithin limits room) limits node scope m

/-- Evaluates a node from outside; where there is no room, it is blamed itself. -/
def Node.evaluate (limits : Limits) (node : Node) (scope : Scope) : Evaluation Value :=
  Evaluation.mapStop (Stop.settle node.pos)
    (node.evaluateWithin limits limits.evaluationRoom scope)

namespace Program

def runFrom (limits : Limits) (scope : Scope) (last : Value) : List Node → Evaluation Value
  | [] => return last
  | n :: ns => do
    match ← n.evaluate limits scope with
    | .returned _ => throw (.error .returnOutside none)
    | v => runFrom limits scope v ns

def run (limits : Limits) (statements : List Node) (scope : Scope) : Evaluation Value := do
  modify fun m => { m with steps := 0, depth := 0 }
  runFrom limits scope .nil statements

end Program

end Scriptlet
