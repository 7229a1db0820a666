import Scriptlet.Proofs.Simulation

namespace Scriptlet

inductive Exit
  | stop (s : Stop)
  | returning (v : Value)

def Exit.mapStop (f : Stop → Stop) : Exit → Exit
  | stop s => stop (f s)
  | returning v => returning v

abbrev Unwinding := ExceptT Exit (StateM Machine)

namespace Unwinding

variable {α β : Type}

def act (e : Evaluation α) : Unwinding α := fun m =>
  ((e m).1.mapError .stop, (e m).2)

def mapStop (f : Stop → Stop) (u : Unwinding α) : Unwinding α := fun m =>
  ((u m).1.mapError (Exit.mapStop f), (u m).2)

def asCall (maxDepth : Int) (u : Unwinding α) : Unwinding α := fun m =>
  if maxDepth ≤ m.depth then (.error (.stop (.error (.callDepth maxDepth) none)), m)
  else
    let x := u { m with depth := m.depth + 1 }
    (x.1, { x.2 with depth := x.2.depth - 1 })

def repeatUntil (turn : Unwinding (Option Value)) : Nat → Unwinding Value
  | 0 => act (throw .endless)
  | n + 1 => turn >>= fun r => r.elim (repeatUntil turn n) pure

instance : Carrier Unwinding where
  act := act
  mapStop := mapStop
  asCall := asCall
  repeatUntil := repeatUntil

def ret (v : Value) : Unwinding α :=
  throw (.returning v)

def catching (u : Unwinding Value) : Unwinding Value := fun m =>
  match u m with
  | (.error (.returning v), n) => (.ok v, n)
  | x => x

theorem catching_ok {u : Unwinding Value} {m n : Machine} {v : Value} (h : u m = (.ok v, n)) :
    catching u m = (.ok v, n) := by
  unfold catching
  rw [h]

theorem catching_stop {u : Unwinding Value} {m n : Machine} {s : Stop}
    (h : u m = (.error (.stop s), n)) : catching u m = (.error (.stop s), n) := by
  unfold catching
  rw [h]

theorem catching_returning {u : Unwinding Value} {m n : Machine} {v : Value}
    (h : u m = (.error (.returning v), n)) : catching u m = (.ok v, n) := by
  unfold catching
  rw [h]

theorem bind_apply (u : Unwinding α) (f : α → Unwinding β) (m : Machine) :
    (u >>= f) m =
      match u m with
      | (.ok a, n) => f a n
      | (.error x, n) => (.error x, n) := by
  change (match u m with | (r, n) => ExceptT.bindCont f r n) = _
  rcases u m with ⟨r | r, n⟩ <;> rfl

theorem asCall_of_le {limit : Int} {u : Unwinding α} {m : Machine} (h : limit ≤ m.depth) :
    asCall limit u m = (.error (.stop (.error (.callDepth limit) none)), m) :=
  if_pos h

theorem asCall_of_lt {limit : Int} {u : Unwinding α} {m : Machine} (h : m.depth < limit) :
    asCall limit u m =
      ((u { m with depth := m.depth + 1 }).1,
        { (u { m with depth := m.depth + 1 }).2 with
          depth := (u { m with depth := m.depth + 1 }).2.depth - 1 }) :=
  if_neg (Int.not_le.mpr h)

section

open Evaluation (openChild bindAll condition all withArity callBuiltin fail)

variable (recur : Node → Scope → Unwinding Value)

def sequence (scope : Scope) (last : Value) : List Node → Unwinding Value
  | [] => return last
  | n :: ns => do sequence scope (← recur n scope) ns

def callFunction (maxDepth : Int) (d : Definition) (scope : Scope) (args : List Value) :
    Unwinding Value :=
  asCall maxDepth (catching do
    let inner ← act (openChild scope)
    act (bindAll inner (d.params.zip args))
    let _ ← sequence recur inner .nil d.body
    return .nil)

def call (maxDepth : Int) (callee : Node) (args : List Node) (scope : Scope) : Unwinding Value := do
  match ← recur callee scope with
  | .function _ d closure =>
    let vs ← all recur scope args
    withArity d.arity vs (callFunction recur maxDepth d closure vs)
  | .builtin b =>
    let vs ← all recur scope args
    withArity b.arity vs (act (callBuiltin b vs))
  | v => act (fail (.notCallable v.kind))

def turn (cond body : Node) (scope : Scope) : Unwinding (Option Value) := do
  if ← condition recur cond scope then
    let _ ← recur body (← act (openChild scope))
    return none
  else return some .nil

def perform (limits : Limits) : Node → Scope → Unwinding Value
  | .call _ callee args, scope => call recur limits.maxDepth callee args scope
  | .program _ statements, scope => sequence recur scope .nil statements
  | .block _ statements, scope => do sequence recur (← act (openChild scope)) .nil statements
  | .loop _ cond body, scope => repeatUntil (turn recur cond body scope) limits.patience
  | .ret _ none, _ => ret .nil
  | .ret _ (some value), scope => do ret (← recur value scope)
  | node, scope => Evaluation.perform recur limits node scope

def visit (limits : Limits) (node : Node) (scope : Scope) : Unwinding Value := do
  act (Evaluation.countStep limits.maxSteps node.pos)
  mapStop (Stop.locate node.pos) (perform recur limits node scope)

end

end Unwinding

def Node.unwindWithin (limits : Limits) : Nat → Node → Scope → Unwinding Value
  | 0, _, _ => Unwinding.act (throw .exhausted)
  | room + 1, node, scope => Unwinding.visit (unwindWithin limits room) limits node scope

def Node.unwind (limits : Limits) (node : Node) (scope : Scope) : Unwinding Value :=
  Unwinding.mapStop (Stop.settle node.pos) (node.unwindWithin limits limits.evaluationRoom scope)

namespace Program

def unwindFrom (limits : Limits) (scope : Scope) (last : Value) : List Node → Unwinding Value
  | [] => return last
  | n :: ns => do unwindFrom limits scope (← n.unwind limits scope) ns

def unwind (limits : Limits) (statements : List Node) (scope : Scope) : Unwinding Value := do
  Unwinding.act (modify fun m => { m with steps := 0, depth := 0 })
  unwindFrom limits scope .nil statements

end Program

end Scriptlet
