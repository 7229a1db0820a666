import Scriptlet.Proofs.ParallelRuns

namespace Scriptlet

open Evaluation

def Pairing.Counts (ρ : Pairing) (maxSteps : Option Int) : Prop :=
  maxSteps = none ∨ ∀ n n', ρ.steps n n' → n = n'

section

variable {ρ : Pairing} {e e' : Scope} {v v' : Value}

theorem parallel_lookup (he : ρ.scope e e') (x : String) :
    Parallel ρ (Value.Like ρ) (lookup e x) (lookup e' x) := by
  intro m m' hm
  have hget := hm.store.get? he x
  unfold lookup
  cases hx : m.store.get? e x <;> cases hx' : m'.store.get? e' x
  all_goals
    rw [hx, hx'] at hget
    cases hget
  · exact ⟨.stop (Stop.like_error ρ _), hm, fun _ _ => rfl⟩
  · rename_i hv
    exact ⟨.value hv, hm, fun _ _ => rfl⟩

theorem parallel_assign (he : ρ.scope e e') (x : String) (hv : v.Like ρ v') :
    Parallel ρ (fun _ _ => True) (assign e x v) (assign e' x v') := by
  intro m m' hm
  have hassign := hm.store.assign? he x hv
  unfold assign
  cases hx : m.store.assign? e x v <;> cases hx' : m'.store.assign? e' x v'
  all_goals
    rw [hx, hx'] at hassign
    cases hassign
  · exact ⟨.stop (Stop.like_error ρ _), hm, fun _ _ => rfl⟩
  · rename_i hstore
    exact ⟨.value trivial, { hm with store := hstore }, Store.Like.spares_assign he hx⟩

theorem parallel_define (he : ρ.scope e e') (x : String) (hv : v.Like ρ v') :
    Parallel ρ (fun _ _ => True) (define e x v) (define e' x v') :=
  fun m _ hm => ⟨.value trivial, { hm with store := hm.store.define he x hv },
    Store.Like.spares_define m.store he x v⟩

theorem parallel_defineNamed (he : ρ.scope e e') (x : Option String) (hv : v.Like ρ v') :
    Parallel ρ (fun _ _ => True) (defineNamed e x v) (defineNamed e' x v') := by
  cases x with
  | none => exact .pure trivial
  | some x => exact parallel_define he x hv

theorem parallel_openChild (he : ρ.scope e e') :
    Parallel ρ ρ.scope (openChild e) (openChild e') :=
  fun _ _ hm => ⟨.value (.cons (hm.store.fresh 0) he), { hm with store := hm.store.push .nil },
    hm.store.spares_push []⟩

theorem Machine.Like.number {m m' : Machine} (hm : m.Like ρ m') :
    { m with made := m.made + 1 }.Like ρ { m' with made := m'.made + 1 } := by
  have hmade (k : Nat) : ρ.id (m.made + 1 + k) (m'.made + 1 + k) := by
    rw [Nat.add_assoc, Nat.add_assoc]
    exact hm.made (1 + k)
  exact { hm with made := hmade }

theorem parallel_makeFunction {d d' : Definition} (hd : d.Like ρ d') (he : ρ.scope e e') :
    Parallel ρ (Value.Like ρ) (makeFunction d e) (makeFunction d' e') :=
  fun _ _ hm => ⟨.value (.function (hm.made 0) hd he), hm.number, fun _ _ => rfl⟩

theorem parallel_declare {d d' : Definition} (hd : d.Like ρ d') (he : ρ.scope e e') :
    Parallel ρ (fun _ _ => True) (do defineNamed e d.name (← makeFunction d e))
      (do defineNamed e' d'.name (← makeFunction d' e')) := by
  apply (parallel_makeFunction hd he).bind
  intro v v' hv
  rw [hd.name]
  exact parallel_defineNamed he d'.name hv

theorem parallel_identify (hv : v.Like ρ v') :
    Parallel ρ (Value.Like ρ) (identify v) (identify v') := by
  cases hv with
  | number x =>
    unfold identify
    simp only
    split
    · exact fun _ _ hm => ⟨.value (.undefined (hm.made 0)), hm.number, fun _ _ => rfl⟩
    · exact .pure (.number x)
  | _ => exact .pure (by constructor <;> assumption)

theorem parallel_print (line : String) :
    Parallel ρ (fun _ _ => True) (print line) (print line) :=
  fun _ _ hm => ⟨.value trivial,
    { hm with output := ρ.output_append "\n" (ρ.output_append line hm.output) }, fun _ _ => rfl⟩

theorem parallel_countStep {maxSteps : Option Int} (hcounts : ρ.Counts maxSteps)
    {p p' : Option Position} (hp : ρ.position p p') :
    Parallel ρ (fun _ _ => True) (countStep maxSteps p) (countStep maxSteps p') := by
  intro m m' hm
  have hmachine : { m with steps := m.steps + 1 }.Like ρ { m' with steps := m'.steps + 1 } :=
    { hm with steps := ρ.steps_succ hm.steps }
  cases maxSteps with
  | none => exact ⟨.value trivial, hmachine, fun _ _ => rfl⟩
  | some limit =>
    have hsteps : m.steps = m'.steps := (hcounts.resolve_left nofun) _ _ hm.steps
    rw [countStep_some, countStep_some, ← hsteps]
    refine ⟨?_, hsteps ▸ hmachine, fun _ _ => rfl⟩
    split
    · exact .stop (.error _ hp)
    · exact .value trivial

theorem parallel_bindAll (he : ρ.scope e e') {vs vs' : List Value}
    (hvs : List.Forall₂ (Value.Like ρ) vs vs') (xs : List String) :
    Parallel ρ (fun _ _ => True) (bindAll e (xs.zip vs)) (bindAll e' (xs.zip vs')) := by
  induction hvs generalizing xs with
  | nil =>
    rw [List.zip_nil_right]
    exact .pure trivial
  | cons hv _ ih =>
    cases xs with
    | nil => exact .pure trivial
    | cons x xs => exact (parallel_define he x hv).bind fun _ _ _ => ih xs

theorem parallel_callBuiltin (b : Builtin) {vs vs' : List Value}
    (hvs : List.Forall₂ (Value.Like ρ) vs vs') :
    Parallel ρ (Value.Like ρ) (callBuiltin b vs) (callBuiltin b vs') := by
  cases b with
  | print =>
    cases hvs with
    | nil => exact .pure .nil
    | cons hv _ =>
      unfold callBuiltin
      simp only [hv.text]
      exact (parallel_print _).bind fun _ _ _ => .pure .nil
  | str =>
    cases hvs with
    | nil => exact .pure .nil
    | cons hv _ =>
      unfold callBuiltin
      simp only [hv.text]
      exact .pure (.string _)
  | clock =>
    have hclock : Parallel ρ (Value.Like ρ) (do return .number (← readClock))
        (do return .number (← readClock)) := by
      intro m m' hm
      have hnumber : (Value.number (m.clock.reading 0)).Like ρ (.number (m'.clock.reading 0)) :=
        hm.clock ▸ .number _
      exact ⟨.value hnumber, { hm with clock := congrArg (·.drop 1) hm.clock }, fun _ _ => rfl⟩
    cases hvs <;> exact hclock

end

namespace Operator

variable {ρ : Pairing}

theorem ends_arithmetic (op : String) (x y : Float) :
    Ends ρ (Value.Like ρ) (arithmetic op x y) (arithmetic op x y) := by
  unfold arithmetic
  split
  case h_8 =>
    split
    · exact .stop (Stop.like_error ρ _)
    · exact .value (.number _)
  case h_9 => exact .stop (.unknownOperator op)
  all_goals first | exact .value (.bool _) | exact .value (.number _)

theorem ends_binary (op : String) {a a' b b' : Value} (ha : a.Like ρ a') (hb : b.Like ρ b') :
    Ends ρ (Value.Like ρ) (binary op a b) (binary op a' b') := by
  unfold binary
  rw [ha.equal hb, ha.number?, hb.number?, ha.kind, hb.kind]
  split
  · exact .value (.bool _)
  · exact .value (.bool _)
  · split
    · exact ends_arithmetic op _ _
    · exact .stop (Stop.like_error ρ _)

theorem ends_unary (op : String) {a a' : Value} (ha : a.Like ρ a') :
    Ends ρ (Value.Like ρ) (unary op a) (unary op a') := by
  unfold unary
  rw [ha.isTruthy, ha.number?, ha.kind]
  split
  · exact .value (.bool _)
  · split
    · exact .value (.number _)
    · exact .stop (Stop.like_error ρ _)

end Operator

def ParallelNodes (ρ : Pairing) (recur recur' : Node → Scope → Evaluation Value) : Prop :=
  ∀ n n' e e', n.Like ρ n' → ρ.scope e e' → Parallel ρ (Value.Like ρ) (recur n e) (recur' n' e')

namespace ParallelNodes

variable {ρ : Pairing} {recur recur' : Node → Scope → Evaluation Value}
  (h : ParallelNodes ρ recur recur') {e e' : Scope} (he : ρ.scope e e')

include h he

theorem all {ns ns' : List Node} (hns : List.Forall₂ (Node.Like ρ) ns ns') :
    Parallel ρ (List.Forall₂ (Value.Like ρ)) (all recur e ns) (all recur' e' ns') := by
  induction hns with
  | nil => exact .pure .nil
  | cons hn _ ih =>
    apply (h _ _ e e' hn he).bind
    intro v v' hv
    apply ih.bind
    intro vs vs' hvs
    exact .pure (.cons hv hvs)

theorem sequence {ns ns' : List Node} (hns : List.Forall₂ (Node.Like ρ) ns ns') {last last' : Value}
    (hlast : last.Like ρ last') :
    Parallel ρ (Value.Like ρ) (sequence recur e last ns) (sequence recur' e' last' ns') := by
  induction hns generalizing last last' with
  | nil => exact .pure hlast
  | cons hn _ ih =>
    apply (h _ _ e e' hn he).bind
    intro v v' hv
    cases hv with
    | returned hv => exact .pure (.returned hv)
    | _ => exact ih (by constructor <;> assumption)

theorem binary (op : String) {a a' b b' : Node} (ha : a.Like ρ a') (hb : b.Like ρ b') :
    Parallel ρ (Value.Like ρ) (binary recur op a b e) (binary recur' op a' b' e') := by
  have hleft := h _ _ e e' ha he
  have htruth : Parallel ρ (Value.Like ρ) (do return .bool (← recur b e).isTruthy)
      (do return .bool (← recur' b' e').isTruthy) := by
    apply (h _ _ e e' hb he).bind
    intro v v' hv
    rw [hv.isTruthy]
    exact .pure (.bool _)
  unfold Evaluation.binary
  split
  · apply hleft.bind
    intro v v' hv
    rw [hv.isTruthy]
    split
    · exact htruth
    · exact .pure (.bool _)
  · apply hleft.bind
    intro v v' hv
    rw [hv.isTruthy]
    split
    · exact .pure (.bool _)
    · exact htruth
  · apply hleft.bind
    intro v v' hv
    apply (h _ _ e e' hb he).bind
    intro w w' hw
    exact (Parallel.ofExcept (Operator.ends_binary op hv hw)).bind fun _ _ => parallel_identify

theorem condition {n n' : Node} (hn : n.Like ρ n') :
    Parallel ρ Eq (condition recur n e) (condition recur' n' e') := by
  have hfail (kind : ValueKind) : Parallel ρ (Eq (α := Bool)) (throw (.error (.condition kind) n.pos))
      (throw (.error (.condition kind) n'.pos)) :=
    .throw (.error _ hn.pos)
  apply (h _ _ e e' hn he).bind
  intro v v' hv
  cases hv with
  | bool b => exact .pure rfl
  | _ => exact hfail _

theorem turn {c c' n n' : Node} (hc : c.Like ρ c') (hn : n.Like ρ n') :
    Parallel ρ (Option.Rel (Value.Like ρ)) (turn recur c n e) (turn recur' c' n' e') := by
  apply (h.condition he hc).bind
  rintro b _ rfl
  split
  · apply (parallel_openChild he).bind
    intro inner inner' hinner
    apply (h _ _ inner inner' hn hinner).bind
    intro v v' hv
    cases hv with
    | returned hv => exact .pure (.some (.returned hv))
    | _ => exact .pure .none
  · exact .pure (.some .nil)

theorem callFunction (maxDepth : Int) {d d' : Definition} (hd : d.Like ρ d') {vs vs' : List Value}
    (hvs : List.Forall₂ (Value.Like ρ) vs vs') :
    Parallel ρ (Value.Like ρ) (callFunction recur maxDepth d e vs)
      (callFunction recur' maxDepth d' e' vs') := by
  unfold Evaluation.callFunction
  rw [← hd.params]
  apply Parallel.asCall
  apply (parallel_openChild he).bind
  intro inner inner' hinner
  apply (parallel_bindAll hinner hvs d.params).bind
  intro _ _ _
  apply (h.sequence hinner hd.body .nil).bind
  intro v v' hv
  cases hv with
  | returned hv => exact .pure hv
  | _ => exact .pure .nil

theorem call (maxDepth : Int) {n n' : Node} (hn : n.Like ρ n') {ns ns' : List Node}
    (hns : List.Forall₂ (Node.Like ρ) ns ns') :
    Parallel ρ (Value.Like ρ) (call recur maxDepth n ns e) (call recur' maxDepth n' ns' e') := by
  have harity {vs vs' : List Value} (hvs : List.Forall₂ (Value.Like ρ) vs vs') (arity : Nat)
      {c c' : Evaluation Value} (hc : Parallel ρ (Value.Like ρ) c c') :
      Parallel ρ (Value.Like ρ) (withArity arity vs c) (withArity arity vs' c') := by
    unfold withArity
    rw [hvs.length_eq]
    split
    · exact hc
    · exact .fail _
  apply (h _ _ e e' hn he).bind
  intro v v' hv
  cases hv with
  | function hi hd ht =>
    apply (h.all he hns).bind
    intro vs vs' hvs
    unfold Definition.arity
    rw [← hd.params]
    exact harity hvs _ (h.callFunction ht maxDepth hd hvs)
  | builtin b =>
    apply (h.all he hns).bind
    intro vs vs' hvs
    exact harity hvs _ (parallel_callBuiltin b hvs)
  | _ => exact .fail _

theorem perform (limits : Limits) {n n' : Node} (hn : n.Like ρ n') :
    Parallel ρ (Value.Like ρ) (perform recur limits n e) (perform recur' limits n' e') := by
  cases hn with
  | literal hp hv => exact .pure hv
  | name x hp => exact parallel_lookup he x
  | binary op hp ha hb => exact h.binary he op ha hb
  | unary op hp ha =>
    apply (h _ _ e e' ha he).bind
    intro v v' hv
    exact (Parallel.ofExcept (Operator.ends_unary op hv)).bind fun _ _ => parallel_identify
  | assign x hp ha =>
    apply (h _ _ e e' ha he).bind
    intro v v' hv
    exact (parallel_assign he x hv).bind fun _ _ _ => .pure hv
  | call hp ha hns => exact h.call he limits.maxDepth ha hns
  | function hd => exact parallel_makeFunction hd he
  | program hp hns => exact h.sequence he hns .nil
  | expression hp ha => exact h _ _ e e' ha he
  | declareVar x hp ha =>
    apply (h _ _ e e' ha he).bind
    intro v v' hv
    exact (parallel_define he x hv).bind fun _ _ _ => .pure .nil
  | declareFunction hp hd =>
    exact (parallel_declare hd he).bind fun _ _ _ => .pure .nil
  | block hp hns =>
    apply (parallel_openChild he).bind
    intro inner inner' hinner
    exact h.sequence hinner hns .nil
  | oneBranch hp hc hn =>
    apply (h.condition he hc).bind
    rintro b _ rfl
    split
    · exact h _ _ e e' hn he
    · exact .pure .nil
  | twoBranches hp hc hn hk =>
    apply (h.condition he hc).bind
    rintro b _ rfl
    split
    · exact h _ _ e e' hn he
    · exact h _ _ e e' hk he
  | loop hp hc hn => exact (h.turn he hc hn).repeatUntil limits.patience
  | ret hp => exact .pure (.returned .nil)
  | retValue hp ha =>
    apply (h _ _ e e' ha he).bind
    intro v v' hv
    exact .pure (.returned hv)
  | hole sort hp => exact .fail _

theorem visit {limits : Limits} (hcounts : ρ.Counts limits.maxSteps) {n n' : Node}
    (hn : n.Like ρ n') :
    Parallel ρ (Value.Like ρ) (visit recur limits n e) (visit recur' limits n' e') := by
  apply (parallel_countStep hcounts hn.pos).bind
  intro _ _ _
  exact (h.perform he limits hn).mapStop fun _ _ hs => hs.locate hn.pos

end ParallelNodes

section

variable {ρ : Pairing} {limits : Limits} {e e' : Scope}

theorem parallel_evaluateWithin (hcounts : ρ.Counts limits.maxSteps) (room : Nat) :
    ParallelNodes ρ (Node.evaluateWithin limits room) (Node.evaluateWithin limits room) := by
  induction room with
  | zero => exact fun _ _ _ _ _ _ => .throw .exhausted
  | succ room ih => exact fun n n' e e' hn he => ih.visit he hcounts hn

theorem parallel_evaluate (hcounts : ρ.Counts limits.maxSteps) :
    ParallelNodes ρ (Node.evaluate limits) (Node.evaluate limits) := by
  intro n n' e e' hn he
  have hwithin := parallel_evaluateWithin hcounts limits.evaluationRoom n n' e e' hn he
  exact hwithin.mapStop fun _ _ hs => hs.settle hn.pos

theorem Program.parallel_runFrom (hcounts : ρ.Counts limits.maxSteps) (he : ρ.scope e e')
    {ns ns' : List Node} (hns : List.Forall₂ (Node.Like ρ) ns ns') {last last' : Value}
    (hlast : last.Like ρ last') :
    Parallel ρ (Value.Like ρ) (runFrom limits e last ns) (runFrom limits e' last' ns') := by
  induction hns generalizing last last' with
  | nil => exact .pure hlast
  | cons hn _ ih =>
    apply (parallel_evaluate hcounts _ _ e e' hn he).bind
    intro v v' hv
    cases hv with
    | returned hv => exact .throw (Stop.like_error ρ _)
    | _ => exact ih (by constructor <;> assumption)

theorem Program.parallel_run (hcounts : ρ.Counts limits.maxSteps) (hsteps : ρ.steps 0 0)
    (he : ρ.scope e e') {ns ns' : List Node} (hns : List.Forall₂ (Node.Like ρ) ns ns') :
    Parallel ρ (Value.Like ρ) (run limits ns e) (run limits ns' e') := by
  have hreset : Parallel ρ (fun _ _ => True)
      (modify fun m => { m with steps := 0, depth := 0 } : Evaluation Unit)
      (modify fun m => { m with steps := 0, depth := 0 }) :=
    fun _ _ hm => ⟨.value trivial, { hm with steps := hsteps, depth := rfl }, fun _ _ => rfl⟩
  exact hreset.bind fun _ _ _ => parallel_runFrom hcounts he hns .nil

end

end Scriptlet
