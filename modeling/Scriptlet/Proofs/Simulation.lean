import Scriptlet.Proofs.MachineGrowth

/-!
Two evaluations of one tree, in two carriers and under two sets of limits. A relation between
computations that holds of the parts of a construct holds of the construct, so that it holds of
whole evaluations once it is shown for actions, steps, calls and for one computation behind
another.
-/

namespace Scriptlet

open Evaluation

class LawfulCarrier (M : Type → Type) [Monad M] [Carrier M] : Prop where
  repeatUntil_zero (turn : M (Option Value)) :
    Carrier.repeatUntil turn 0 = Carrier.act (throw .endless)
  repeatUntil_succ (turn : M (Option Value)) (n : Nat) :
    Carrier.repeatUntil turn (n + 1) =
      turn >>= fun r => r.elim (Carrier.repeatUntil turn n) pure

instance : LawfulCarrier Evaluation where
  repeatUntil_zero _ := rfl
  repeatUntil_succ turn n := by
    funext m
    rw [bind_apply]
    change (match turn m with | (.ok none, _) => _ | (.ok (some v), _) => _ | (.error _, _) => _) = _
    rcases turn m with ⟨s | (_ | v), m'⟩ <;> rfl

def Faults {α : Type} (x : Except Stop α) (fault : RuntimeFault) : Prop :=
  ∃ pos, x = .error (.error fault pos)

deriving instance DecidableEq for RuntimeFault

instance {α : Type} (x : Except Stop α) (fault : RuntimeFault) : Decidable (Faults x fault) :=
  match x with
  | .error (.error f pos) => decidable_of_iff (f = fault) (by simp [Faults])
  | .error (.unknownOperator _) | .error .exhausted | .error .endless | .ok _ =>
    isFalse (by simp [Faults])

structure Stop.Relabels (f : Stop → Stop) : Prop where
  fault : ∀ s fault, fault.OfLimit → ((∃ pos, f s = .error fault pos) ↔ ∃ pos, s = .error fault pos)
  unfinished : ∀ s, (f s).Unfinished ↔ s.Unfinished

theorem Stop.relabels_locate (pos : Option Position) : Stop.Relabels (Stop.locate pos) := by
  constructor
  · intro s fault _
    cases s with
    | error f p => cases p <;> simp [locate]
    | _ => rfl
  · intro s
    cases s with
    | error f p => cases p <;> cases f <;> rfl
    | _ => rfl

theorem Stop.relabels_settle (pos : Option Position) : Stop.Relabels (Stop.settle pos) := by
  constructor
  · intro s fault hfault
    cases s with
    | exhausted =>
      constructor
      · rintro ⟨p, h⟩
        cases h
        exact hfault.elim
      · rintro ⟨p, h⟩
        cases h
    | _ => rfl
  · intro s
    cases s <;> rfl

theorem faults_mapError {α : Type} {f : Stop → Stop} (hf : Stop.Relabels f) (x : Except Stop α)
    (fault : RuntimeFault) (hfault : fault.OfLimit) :
    Faults (x.mapError f) fault ↔ Faults x fault := by
  cases x with
  | ok a => exact ⟨nofun, nofun⟩
  | error s =>
    have herror (t : Stop) : Faults (.error t : Except Stop α) fault ↔ ∃ pos, t = .error fault pos := by
      simp [Faults]
    exact (herror (f s)).trans ((hf.fault s fault hfault).trans (herror s).symm)

section

variable {M N : Type → Type} [Monad M] [Carrier M] [Monad N] [Carrier N]

structure Composes (rel : (α : Type) → M α → N α → Prop) (limits limits' : Limits) : Prop where
  pure : ∀ {α : Type} (a : α), rel _ (pure a) (pure a)
  bind : ∀ {α β : Type} {e : M α} {e' : N α} {f : α → M β} {f' : α → N β},
    rel _ e e' → (∀ a, rel _ (f a) (f' a)) → rel _ (e >>= f) (e' >>= f')
  act : ∀ {α : Type} {e : Evaluation α}, Plain e → rel _ (Carrier.act e) (Carrier.act e)
  relabel : ∀ {α : Type} {f : Stop → Stop} {e : M α} {e' : N α}, Stop.Relabels f →
    rel _ e e' → rel _ (Carrier.mapStop f e) (Carrier.mapStop f e')
  call : ∀ {α : Type} {e : M α} {e' : N α}, rel _ e e' →
    rel _ (Carrier.asCall limits.maxDepth e) (Carrier.asCall limits'.maxDepth e')

structure Simulates (rel : (α : Type) → M α → N α → Prop) (limits limits' : Limits) : Prop
    extends Composes rel limits limits' where
  patience : limits.patience = limits'.patience
  step : ∀ pos, rel _ (Carrier.act (countStep limits.maxSteps pos))
    (Carrier.act (countStep limits'.maxSteps pos))
  halt : ∀ {s : Stop}, s.Unfinished → rel Value (Carrier.act (throw s)) (Carrier.act (throw s))

namespace Composes

variable {rel : (α : Type) → M α → N α → Prop} {limits limits' : Limits}
  {recur : Node → Scope → M Value} {recur' : Node → Scope → N Value}

theorem all (h : Composes rel limits limits') (hrec : ∀ n e, rel _ (recur n e) (recur' n e))
    (scope : Scope) (ns : List Node) : rel _ (all recur scope ns) (all recur' scope ns) := by
  induction ns with
  | nil => exact h.pure []
  | cons n ns ih => exact h.bind (hrec n scope) fun v => h.bind ih fun vs => h.pure (v :: vs)

theorem sequence (h : Composes rel limits limits') (hrec : ∀ n e, rel _ (recur n e) (recur' n e))
    (scope : Scope) (last : Value) (ns : List Node) :
    rel _ (sequence recur scope last ns) (sequence recur' scope last ns) := by
  induction ns generalizing last with
  | nil => exact h.pure last
  | cons n ns ih =>
    apply h.bind (hrec n scope)
    intro v
    cases v
    case returned v => exact h.pure _
    all_goals exact ih _

theorem binary (h : Composes rel limits limits') (hrec : ∀ n e, rel _ (recur n e) (recur' n e))
    (op : String) (left right : Node) (scope : Scope) :
    rel _ (binary recur op left right scope) (binary recur' op left right scope) := by
  have hright (f : Value → Bool) :
      rel Value (do return .bool (f (← recur right scope)))
        (do return .bool (f (← recur' right scope))) :=
    h.bind (hrec right scope) fun v => h.pure _
  unfold Evaluation.binary
  split
  · apply h.bind (hrec left scope)
    intro v
    split
    · exact hright _
    · exact h.pure _
  · apply h.bind (hrec left scope)
    intro v
    split
    · exact h.pure _
    · exact hright _
  · apply h.bind (hrec left scope)
    intro a
    apply h.bind (hrec right scope)
    intro b
    exact h.act ((Plain.ofExcept fun _ => Operator.binary_not_overLimit).bind plain_identify)

theorem condition (h : Composes rel limits limits') (hrec : ∀ n e, rel _ (recur n e) (recur' n e))
    (node : Node) (scope : Scope) :
    rel _ (condition recur node scope) (condition recur' node scope) := by
  apply h.bind (hrec node scope)
  intro v
  cases v
  case bool b => exact h.pure b
  all_goals exact h.act (.throw id)

theorem callFunction (h : Composes rel limits limits')
    (hrec : ∀ n e, rel _ (recur n e) (recur' n e)) (d : Definition) (scope : Scope)
    (args : List Value) :
    rel _ (callFunction recur limits.maxDepth d scope args)
      (callFunction recur' limits'.maxDepth d scope args) := by
  apply h.call
  apply h.bind (h.act (plain_openChild scope))
  intro inner
  apply h.bind (h.act (plain_bindAll inner _))
  intro _
  apply h.bind (h.sequence hrec inner .nil d.body)
  intro v
  cases v <;> exact h.pure _

theorem withArity (h : Composes rel limits limits') {arity : Nat} {args : List Value} {e : M Value}
    {e' : N Value} (he : rel _ e e') : rel _ (withArity arity args e) (withArity arity args e') := by
  unfold Evaluation.withArity
  split
  · exact he
  · exact h.act (.throw id)

theorem evaluateCall (h : Composes rel limits limits')
    (hrec : ∀ n e, rel _ (recur n e) (recur' n e)) (callee : Node) (args : List Node)
    (scope : Scope) :
    rel _ (Evaluation.call recur limits.maxDepth callee args scope)
      (Evaluation.call recur' limits'.maxDepth callee args scope) := by
  apply h.bind (hrec callee scope)
  intro v
  cases v
  case function i d closure =>
    apply h.bind (h.all hrec scope args)
    intro vs
    exact h.withArity (h.callFunction hrec d closure vs)
  case builtin b =>
    apply h.bind (h.all hrec scope args)
    intro vs
    exact h.withArity (h.act (plain_callBuiltin b vs))
  all_goals exact h.act (.throw id)

theorem turn_of_condition (h : Composes rel limits limits')
    (hrec : ∀ n e, rel _ (recur n e) (recur' n e)) (cond body : Node) (scope : Scope)
    {relTurn : M (Option Value) → N (Option Value) → Prop}
    (hcond : ∀ {f f'}, (∀ b, rel _ (f b) (f' b)) →
      relTurn (Evaluation.condition recur cond scope >>= f)
        (Evaluation.condition recur' cond scope >>= f')) :
    relTurn (turn recur cond body scope) (turn recur' cond body scope) := by
  apply hcond
  intro b
  split
  · apply h.bind (h.act (plain_openChild scope))
    intro inner
    apply h.bind (hrec body inner)
    intro v
    cases v <;> exact h.pure _
  · exact h.pure _

theorem perform (h : Composes rel limits limits') (hrec : ∀ n e, rel _ (recur n e) (recur' n e))
    (hloop : ∀ cond body scope, rel _
      (Carrier.repeatUntil (turn recur cond body scope) limits.patience)
      (Carrier.repeatUntil (turn recur' cond body scope) limits'.patience))
    (node : Node) (scope : Scope) :
    rel _ (perform recur limits node scope) (perform recur' limits' node scope) := by
  cases node with
  | literal pos v => exact h.pure v
  | name pos x => exact h.act (plain_lookup scope x)
  | binary pos op left right => exact h.binary hrec op left right scope
  | unary pos op operand =>
    apply h.bind (hrec operand scope)
    intro v
    exact h.act ((Plain.ofExcept fun _ => Operator.unary_not_overLimit).bind plain_identify)
  | assign pos x value =>
    apply h.bind (hrec value scope)
    intro v
    exact h.bind (h.act (plain_assign scope x v)) fun _ => h.pure v
  | call pos callee args => exact h.evaluateCall hrec callee args scope
  | function d => exact h.act (plain_makeFunction d scope)
  | program pos statements => exact h.sequence hrec scope .nil statements
  | expression pos body => exact hrec body scope
  | declareVar pos x value =>
    apply h.bind (hrec value scope)
    intro v
    exact h.bind (h.act (plain_define scope x v)) fun _ => h.pure _
  | declareFunction pos d =>
    refine h.bind (h.act ?_) fun _ => h.pure _
    exact (plain_makeFunction d scope).bind fun v => plain_defineNamed scope d.name v
  | block pos statements =>
    apply h.bind (h.act (plain_openChild scope))
    intro inner
    exact h.sequence hrec inner .nil statements
  | conditional pos cond thenBranch elseBranch =>
    apply h.bind (h.condition hrec cond scope)
    intro b
    split
    · exact hrec thenBranch scope
    · cases elseBranch with
      | none => exact h.pure _
      | some e => exact hrec e scope
  | loop pos cond body => exact hloop cond body scope
  | ret pos value =>
    cases value with
    | none => exact h.pure _
    | some value => exact h.bind (hrec value scope) fun v => h.pure _
  | hole pos sort => exact h.act (.throw id)

end Composes

namespace Simulates

variable [LawfulCarrier M] [LawfulCarrier N] {rel : (α : Type) → M α → N α → Prop}
  {limits limits' : Limits} {recur : Node → Scope → M Value} {recur' : Node → Scope → N Value}

theorem repeatUntil (h : Simulates rel limits limits')
    {t : M (Option Value)} {t' : N (Option Value)} (ht : rel _ t t') (n : Nat) :
    rel _ (Carrier.repeatUntil t n) (Carrier.repeatUntil t' n) := by
  induction n with
  | zero =>
    rw [LawfulCarrier.repeatUntil_zero, LawfulCarrier.repeatUntil_zero]
    exact h.halt trivial
  | succ n ih =>
    rw [LawfulCarrier.repeatUntil_succ, LawfulCarrier.repeatUntil_succ]
    apply h.bind ht
    intro r
    cases r with
    | none => exact ih
    | some v => exact h.pure v

theorem visit (h : Simulates rel limits limits') (hrec : ∀ n e, rel _ (recur n e) (recur' n e))
    (node : Node) (scope : Scope) :
    rel _ (visit recur limits node scope) (visit recur' limits' node scope) := by
  have hloop (cond body : Node) (scope : Scope) :
      rel _ (Carrier.repeatUntil (turn recur cond body scope) limits.patience)
        (Carrier.repeatUntil (turn recur' cond body scope) limits'.patience) := by
    rw [← h.patience]
    have hcond := h.condition hrec cond scope
    exact h.repeatUntil (h.turn_of_condition hrec cond body scope (h.bind hcond)) limits.patience
  apply h.bind (h.step node.pos)
  intro _
  exact h.relabel (Stop.relabels_locate node.pos) (h.perform hrec hloop node scope)

end Simulates

end

theorem Composes.runFrom {rel : (α : Type) → Evaluation α → Evaluation α → Prop}
    {limits limits' : Limits} (h : Composes rel limits limits')
    (heval : ∀ (n : Node) e, rel _ (n.evaluate limits e) (n.evaluate limits' e)) (scope : Scope)
    (last : Value) (statements : List Node) :
    rel _ (Program.runFrom limits scope last statements)
      (Program.runFrom limits' scope last statements) := by
  induction statements generalizing last with
  | nil => exact h.pure last
  | cons n ns ih =>
    apply h.bind (heval n scope)
    intro v
    cases v
    case returned v => exact h.act (.throw id)
    all_goals exact ih _

namespace Simulates

variable {rel : (α : Type) → Evaluation α → Evaluation α → Prop} {limits limits' : Limits}

theorem evaluateWithin (h : Simulates rel limits limits') (room : Nat) (node : Node)
    (scope : Scope) :
    rel _ (node.evaluateWithin limits room scope) (node.evaluateWithin limits' room scope) := by
  induction room generalizing node scope with
  | zero => exact h.halt trivial
  | succ room ih => exact h.visit ih node scope

theorem evaluate (h : Simulates rel limits limits')
    (hroom : limits.evaluationRoom = limits'.evaluationRoom) (node : Node) (scope : Scope) :
    rel _ (node.evaluate limits scope) (node.evaluate limits' scope) := by
  have hwithin := h.evaluateWithin limits.evaluationRoom node scope
  have hsettled := h.relabel (Stop.relabels_settle node.pos) hwithin
  unfold Node.evaluate
  rwa [← hroom]

theorem runFrom (h : Simulates rel limits limits')
    (hroom : limits.evaluationRoom = limits'.evaluationRoom) (scope : Scope) (last : Value)
    (statements : List Node) :
    rel _ (Program.runFrom limits scope last statements)
      (Program.runFrom limits' scope last statements) :=
  h.toComposes.runFrom (h.evaluate hroom) scope last statements

end Simulates

end Scriptlet
