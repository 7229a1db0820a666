import Scriptlet.Proofs.Simulation

namespace Scriptlet

/-- What is seen of an evaluation. -/
inductive Note
  | action (before after : Machine)
  | evaluated (node : Node) (scope : Scope) (result : Except Stop Value) (after : Machine)

def Recorded (α : Type) : Type :=
  Machine → (Except Stop α × Machine) × List Note

namespace Recorded

variable {α β : Type}

instance : Monad Recorded where
  pure a := fun m => ((.ok a, m), [])
  bind e f := fun m =>
    match e m with
    | ((.ok a, n), h) => ((f a n).1, h ++ (f a n).2)
    | ((.error s, n), h) => ((.error s, n), h)

def act (e : Evaluation α) : Recorded α := fun m =>
  (e m, [.action m (e m).2])

def mapStop (f : Stop → Stop) (e : Recorded α) : Recorded α := fun m =>
  (((e m).1.1.mapError f, (e m).1.2), (e m).2)

def asCall (maxDepth : Int) (e : Recorded α) : Recorded α := fun m =>
  if maxDepth ≤ m.depth then ((.error (.error (.callDepth maxDepth) none), m), [])
  else
    let x := e { m with depth := m.depth + 1 }
    ((x.1.1, { x.1.2 with depth := x.1.2.depth - 1 }), x.2)

def repeatUntil (turn : Recorded (Option Value)) : Nat → Recorded Value
  | 0 => act (throw .endless)
  | n + 1 => turn >>= fun r => r.elim (repeatUntil turn n) pure

instance : Carrier Recorded where
  act := act
  mapStop := mapStop
  asCall := asCall
  repeatUntil := repeatUntil

instance : LawfulCarrier Recorded where
  repeatUntil_zero _ := rfl
  repeatUntil_succ _ _ := rfl

def noting (node : Node) (scope : Scope) (e : Recorded Value) : Recorded Value := fun m =>
  ((e m).1, (e m).2 ++ [.evaluated node scope (e m).1.1 (e m).1.2])

theorem act_apply (e : Evaluation α) (m : Machine) : act e m = (e m, [.action m (e m).2]) :=
  rfl

theorem bind_apply (e : Recorded α) (f : α → Recorded β) (m : Machine) :
    (e >>= f) m =
      match e m with
      | ((.ok a, n), h) => ((f a n).1, h ++ (f a n).2)
      | ((.error s, n), h) => ((.error s, n), h) :=
  rfl

theorem asCall_of_le {limit : Int} {e : Recorded α} {m : Machine} (h : limit ≤ m.depth) :
    asCall limit e m = ((.error (.error (.callDepth limit) none), m), []) :=
  if_pos h

theorem asCall_of_lt {limit : Int} {e : Recorded α} {m : Machine} (h : m.depth < limit) :
    asCall limit e m =
      (((e { m with depth := m.depth + 1 }).1.1,
        { (e { m with depth := m.depth + 1 }).1.2 with
          depth := (e { m with depth := m.depth + 1 }).1.2.depth - 1 }),
        (e { m with depth := m.depth + 1 }).2) :=
  if_neg (Int.not_le.mpr h)

end Recorded

def Node.recordWithin (limits : Limits) : Nat → Node → Scope → Recorded Value
  | 0, _, _ => Carrier.act (throw .exhausted)
  | room + 1, node, scope =>
    Recorded.noting node scope (Evaluation.visit (recordWithin limits room) limits node scope)

def Node.record (limits : Limits) (node : Node) (scope : Scope) : Recorded Value :=
  Carrier.mapStop (Stop.settle node.pos) (node.recordWithin limits limits.evaluationRoom scope)

namespace Program

def recordFrom (limits : Limits) (scope : Scope) (last : Value) : List Node → Recorded Value
  | [] => return last
  | n :: ns => do
    match ← n.record limits scope with
    | .returned _ => Carrier.act (throw (.error .returnOutside none))
    | v => recordFrom limits scope v ns

def record (limits : Limits) (statements : List Node) (scope : Scope) : Recorded Value := do
  Carrier.act (modify fun m => { m with steps := 0, depth := 0 })
  recordFrom limits scope .nil statements

theorem record_apply (limits : Limits) (statements : List Node) (scope : Scope) (m : Machine) :
    record limits statements scope m =
      ((recordFrom limits scope .nil statements { m with steps := 0, depth := 0 }).1,
        .action m { m with steps := 0, depth := 0 } ::
          (recordFrom limits scope .nil statements { m with steps := 0, depth := 0 }).2) :=
  rfl

end Program

namespace Simulates

open Recorded

variable {rel : (α : Type) → Recorded α → Evaluation α → Prop} {limits limits' : Limits}

theorem recordWithin (h : Simulates rel limits limits')
    (hnoting : ∀ node scope {e e'}, rel _ e e' → rel _ (noting node scope e) e')
    (room : Nat) (node : Node) (scope : Scope) :
    rel _ (node.recordWithin limits room scope) (node.evaluateWithin limits' room scope) := by
  induction room generalizing node scope with
  | zero => exact h.halt trivial
  | succ room ih => exact hnoting node scope (h.visit ih node scope)

theorem recordFrom (h : Simulates rel limits limits')
    (hnoting : ∀ node scope {e e'}, rel _ e e' → rel _ (noting node scope e) e')
    (hroom : limits.evaluationRoom = limits'.evaluationRoom) (scope : Scope) (last : Value)
    (statements : List Node) :
    rel _ (Program.recordFrom limits scope last statements)
      (Program.runFrom limits' scope last statements) := by
  induction statements generalizing last with
  | nil => exact h.pure last
  | cons n ns ih =>
    have hwithin := h.recordWithin hnoting limits.evaluationRoom n scope
    have hsettled := h.relabel (Stop.relabels_settle n.pos) hwithin
    rw [hroom] at hsettled
    unfold Program.recordFrom Node.record
    rw [hroom]
    apply h.bind hsettled
    intro v
    cases v
    case returned v => exact h.act (.throw id)
    all_goals exact ih _

end Simulates

namespace Recorded

variable {α β : Type}

def Matches (e : Recorded α) (e' : Evaluation α) : Prop :=
  ∀ m, (e m).1 = e' m

theorem Matches.bind {e : Recorded α} {e' : Evaluation α} {f : α → Recorded β}
    {f' : α → Evaluation β} (he : Matches e e') (hf : ∀ a, Matches (f a) (f' a)) :
    Matches (e >>= f) (e' >>= f') := by
  intro m
  rw [bind_apply, Evaluation.bind_apply, ← he m]
  rcases e m with ⟨⟨s | a, n⟩, h⟩
  · rfl
  · exact hf a n

theorem Matches.mapStop {e : Recorded α} {e' : Evaluation α} (h : Matches e e') (f : Stop → Stop) :
    Matches (mapStop f e) (Evaluation.mapStop f e') := by
  intro m
  change ((e m).1.1.mapError f, (e m).1.2) = ((e' m).1.mapError f, (e' m).2)
  rw [h m]

theorem Matches.asCall {e : Recorded α} {e' : Evaluation α} (h : Matches e e') (limit : Int) :
    Matches (asCall limit e) (Evaluation.asCall limit e') := by
  intro m
  by_cases hm : limit ≤ m.depth
  · rw [Evaluation.asCall_of_le hm, asCall_of_le hm]
  · have hlt := Int.not_le.mp hm
    rw [Evaluation.asCall_of_lt hlt, asCall_of_lt hlt, h { m with depth := m.depth + 1 }]

theorem simulates_matches (limits : Limits) :
    Simulates (M := Recorded) (N := Evaluation) (fun _ => Matches) limits limits where
  pure _ _ := rfl
  bind := .bind
  act _ _ := rfl
  relabel _ h := h.mapStop _
  call h := h.asCall _
  patience := rfl
  step _ _ := rfl
  halt _ _ := rfl

theorem matches_record (limits : Limits) (statements : List Node) (scope : Scope) :
    Matches (Program.record limits statements scope) (Program.run limits statements scope) := by
  apply Matches.bind fun _ => rfl
  intro _
  exact (simulates_matches limits).recordFrom (fun _ _ _ _ h => h) rfl scope .nil statements

end Recorded

end Scriptlet
