import Scriptlet.Proofs.Simulation
import Scriptlet.Proofs.TreeShape

/-!
A name that is mentioned nowhere makes no difference: neither whether it is bound nor to what. The
functions that come up while a program runs are its own and those of the store, so none of them
mentions the name either.
-/

namespace Scriptlet

open Evaluation

def Value.definition? : Value → Option Definition
  | .function _ d _ => some d
  | .returned v => v.definition?
  | _ => none

namespace Node

def names : Node → List String
  | .name _ x | .assign _ x _ | .declareVar _ x _ => [x]
  | .function d | .declareFunction _ d => d.name.toList ++ d.params
  | .literal _ v => v.definition?.elim [] (·.params)
  | _ => []

def literalBody : Node → List Node
  | .literal _ v => v.definition?.elim [] (·.body)
  | _ => []

/-- The name `x` is mentioned nowhere in a tree. -/
inductive Lacks (x : String) : Node → Prop
  | intro {n : Node} (names : x ∉ n.names) (parts : ∀ m ∈ n.parts, Lacks x m)
      (literalBody : ∀ m ∈ n.literalBody, Lacks x m) : Lacks x n

end Node

def Definition.Lacks (x : String) (d : Definition) : Prop :=
  x ∉ d.params ∧ ∀ n ∈ d.body, n.Lacks x

def Value.Lacks (x : String) (v : Value) : Prop :=
  ∀ d ∈ v.definition?, d.Lacks x

namespace Store

def Lacks (x : String) (s : Store) : Prop :=
  ∀ a, ∀ y ≠ x, ∀ v, (s.frame a).get? y = some v → v.Lacks x

structure AgreesApart (x : String) (s t : Store) : Prop where
  fresh : t.fresh = s.fresh
  get? : ∀ a, ∀ y ≠ x, (t.frame a).get? y = (s.frame a).get? y

def Leaves (x : String) (s t : Store) : Prop :=
  ∀ a, (t.frame a).get? x = (s.frame a).get? x

variable {x y : String} {s t u : Store} {a : Address} {v : Value}

theorem Leaves.trans (h : s.Leaves x t) (h' : t.Leaves x u) : s.Leaves x u :=
  fun a => (h' a).trans (h a)

theorem get?_update (s : Store) (a b : Address) (x y : String) (v : Value) :
    ((s.update a x v).frame b).get? y =
      if b = a ∧ a < s.fresh ∧ y = x then some v else (s.frame b).get? y := by
  by_cases ha : a < s.fresh
  · rw [frame_update s a b x v ha]
    by_cases hb : b = a
    · rw [if_pos hb, Frame.get?_set]
      simp only [hb, ha, true_and]
    · rw [if_neg hb, if_neg fun h => hb h.1]
  · rw [update_of_fresh_le s x v (Nat.not_lt.mp ha), if_neg fun h => ha h.2.1]

theorem Lacks.update (h : s.Lacks x) (a : Address) (y : String) (hv : v.Lacks x) :
    (s.update a y v).Lacks x := by
  intro b z hz w hw
  rw [get?_update] at hw
  split at hw
  · exact Option.some.inj hw ▸ hv
  · exact h b z hz w hw

theorem AgreesApart.update (h : s.AgreesApart x t) (a : Address) (y : String) (v : Value) :
    (s.update a y v).AgreesApart x (t.update a y v) := by
  refine ⟨?_, fun b z hz => ?_⟩
  · rw [fresh_update, fresh_update, h.fresh]
  · rw [get?_update, get?_update, h.fresh, h.get? b z hz]

theorem leaves_update (s : Store) (a : Address) (hy : y ≠ x) (v : Value) :
    s.Leaves x (s.update a y v) := by
  intro b
  rw [get?_update, if_neg fun h => hy h.2.2.symm]

theorem Lacks.push (h : s.Lacks x) : (s.push []).Lacks x := by
  intro a y hy v hv
  rw [frame_push] at hv
  split at hv
  · cases hv
  · exact h a y hy v hv

theorem AgreesApart.push (h : s.AgreesApart x t) : (s.push []).AgreesApart x (t.push []) := by
  refine ⟨?_, fun a y hy => ?_⟩
  · rw [fresh_push, fresh_push, h.fresh]
  · rw [frame_push, frame_push, h.fresh]
    split
    · rfl
    · exact h.get? a y hy

theorem leaves_push (s : Store) (x : String) : s.Leaves x (s.push []) := by
  intro a
  rw [frame_push]
  split
  · rename_i ha
    rw [frame_of_fresh_le s (Nat.le_of_eq ha.symm)]
  · rfl

theorem AgreesApart.resolve (h : s.AgreesApart x t) (hy : y ≠ x) (scope : Scope) :
    t.resolve scope y = s.resolve scope y := by
  unfold Store.resolve
  congr 1
  funext a
  rw [Frame.contains, Frame.contains, h.get? a y hy]

theorem AgreesApart.get?_scope (h : s.AgreesApart x t) (hy : y ≠ x) (scope : Scope) :
    t.get? scope y = s.get? scope y := by
  unfold Store.get?
  rw [h.resolve hy]
  congr 1
  funext a
  exact h.get? a y hy

end Store

structure SameApart {α : Type} (x : String) (Q : α → Prop) (m : Machine) (s : Store)
    (r r' : Except Stop α × Machine) : Prop where
  result : r'.1 = r.1
  value : ∀ a, r.1 = .ok a → Q a
  machine : r'.2 = { r.2 with store := r'.2.store }
  lacks : r.2.store.Lacks x
  store : r.2.store.AgreesApart x r'.2.store
  left : m.store.Leaves x r.2.store
  right : s.Leaves x r'.2.store

def Ignores {α : Type} (x : String) (Q : α → Prop) (e : Evaluation α) : Prop :=
  ∀ m s, m.store.Lacks x → m.store.AgreesApart x s → SameApart x Q m s (e m) (e { m with store := s })

namespace Ignores

variable {α β : Type} {x : String} {Q : α → Prop} {R : β → Prop} {e : Evaluation α}

theorem of_store (h : ∀ m s, e { m with store := s } = ((e m).1, { (e m).2 with store := s }))
    (hstore : ∀ m, (e m).2.store = m.store) (hQ : ∀ m a, (e m).1 = .ok a → Q a) : Ignores x Q e := by
  intro m s hm hs
  rw [h m s]
  refine ⟨rfl, hQ m, rfl, ?_, ?_, fun a => ?_, fun _ => rfl⟩
  all_goals rw [hstore m]
  · exact hm
  · exact hs

theorem pure {a : α} (h : Q a) : Ignores x Q (pure a) :=
  of_store (fun _ _ => rfl) (fun _ => rfl) fun _ _ ha => Except.ok.inj ha ▸ h

theorem throw (stop : Stop) : Ignores x Q (throw stop) :=
  of_store (fun _ _ => rfl) (fun _ => rfl) fun _ _ ha => nomatch ha

theorem fail (fault : RuntimeFault) : Ignores x Q (Evaluation.fail fault) :=
  throw _

theorem ofExcept {r : Except Stop α} (h : ∀ a, r = .ok a → Q a) :
    Ignores x Q (Evaluation.ofExcept r) :=
  of_store (fun _ _ => rfl) (fun _ => rfl) fun _ => h

theorem bind {f : α → Evaluation β} (he : Ignores x Q e) (hf : ∀ a, Q a → Ignores x R (f a)) :
    Ignores x R (e >>= f) := by
  intro m s hm hs
  obtain ⟨hresult, hvalue, hmachine, hlacks, hstore, hleft, hright⟩ := he m s hm hs
  rw [bind_apply, bind_apply]
  rcases hx : e m with ⟨r, n⟩
  rcases hx' : e { m with store := s } with ⟨r', n'⟩
  rw [hx, hx'] at hresult hmachine hstore
  rw [hx] at hvalue hlacks hleft
  rw [hx'] at hright
  simp only at hresult hmachine hstore hvalue hlacks hleft hright
  subst hresult
  cases r' with
  | error stop => exact ⟨rfl, nofun, hmachine, hlacks, hstore, hleft, hright⟩
  | ok a =>
    rw [hmachine]
    obtain ⟨hresult', hvalue', hmachine', hlacks', hstore', hleft', hright'⟩ :=
      hf a (hvalue a rfl) n n'.store hlacks hstore
    exact ⟨hresult', hvalue', hmachine', hlacks', hstore', hleft.trans hleft', hright.trans hright'⟩

theorem mapStop (h : Ignores x Q e) (f : Stop → Stop) : Ignores x Q (Evaluation.mapStop f e) := by
  intro m s hm hs
  obtain ⟨hresult, hvalue, hmachine, hlacks, hstore, hleft, hright⟩ := h m s hm hs
  have hmapped : (Evaluation.mapStop f e { m with store := s }).1 = (Evaluation.mapStop f e m).1 :=
    congrArg (Except.mapError f) hresult
  refine ⟨hmapped, fun a ha => hvalue a ?_, hmachine, hlacks, hstore, hleft, hright⟩
  change (e m).1.mapError f = .ok a at ha
  cases hr : (e m).1 with
  | ok b =>
    rw [hr] at ha
    exact ha
  | error stop =>
    rw [hr] at ha
    cases ha

theorem asCall (h : Ignores x Q e) (limit : Int) : Ignores x Q (Evaluation.asCall limit e) := by
  intro m s hm hs
  by_cases hle : limit ≤ m.depth
  · rw [asCall_of_le hle, asCall_of_le (m := { m with store := s }) hle]
    exact throw (.error (.callDepth limit) none) m s hm hs
  · have hlt := Int.not_le.mp hle
    rw [asCall_of_lt hlt, asCall_of_lt (m := { m with store := s }) hlt]
    obtain ⟨hresult, hvalue, hmachine, hlacks, hstore, hleft, hright⟩ :=
      h { m with depth := m.depth + 1 } s hm hs
    refine ⟨hresult, hvalue, ?_, hlacks, hstore, hleft, hright⟩
    simp only
    rw [hmachine]

theorem repeatUntil {turn : Evaluation (Option Value)} {Q : Value → Prop}
    (h : Ignores x (fun r => ∀ v ∈ r, Q v) turn) (n : Nat) :
    Ignores x Q (Evaluation.repeatUntil turn n) := by
  induction n with
  | zero => exact throw .endless
  | succ n ih =>
    have hturn := LawfulCarrier.repeatUntil_succ (M := Evaluation) turn n
    change Evaluation.repeatUntil turn (n + 1) = _ at hturn
    rw [hturn]
    apply h.bind
    intro r hr
    cases r with
    | none => exact ih
    | some v => exact pure (hr v rfl)

end Ignores

section

variable {x y : String} {scope : Scope} {v : Value}

theorem Value.lacks_plain (h : v.definition? = none) : v.Lacks x := by
  intro d hd
  rw [h] at hd
  cases hd

theorem ignores_lookup (hy : y ≠ x) : Ignores x (Value.Lacks x) (lookup scope y) := by
  intro m s hm hs
  unfold lookup
  simp only [hs.get?_scope hy]
  cases hget : m.store.get? scope y with
  | none => exact Ignores.throw _ m s hm hs
  | some w =>
    refine ⟨rfl, fun v hv => ?_, rfl, hm, hs, fun _ => rfl, fun _ => rfl⟩
    obtain rfl := Except.ok.inj hv
    obtain ⟨a, -, ha⟩ := Option.bind_eq_some_iff.mp hget
    exact hm a y hy _ ha

theorem sameApart_update {m : Machine} {s : Store} (hm : m.store.Lacks x)
    (hs : m.store.AgreesApart x s) (hy : y ≠ x) (hv : v.Lacks x) (a : Address) :
    SameApart x (fun _ => True) m s ((.ok (), { m with store := m.store.update a y v }))
      ((.ok (), { m with store := s.update a y v })) :=
  ⟨rfl, fun _ _ => trivial, rfl, hm.update a y hv, hs.update a y v, m.store.leaves_update a hy v,
    s.leaves_update a hy v⟩

theorem ignores_define (hy : y ≠ x) (hv : v.Lacks x) :
    Ignores x (fun _ => True) (define scope y v) := by
  intro m s hm hs
  cases scope with
  | nil => exact Ignores.pure trivial m s hm hs
  | cons a scope => exact sameApart_update hm hs hy hv a

theorem ignores_assign (hy : y ≠ x) (hv : v.Lacks x) :
    Ignores x (fun _ => True) (assign scope y v) := by
  intro m s hm hs
  unfold assign Store.assign?
  simp only [hs.resolve hy]
  cases m.store.resolve scope y with
  | none => exact Ignores.throw _ m s hm hs
  | some a => exact sameApart_update hm hs hy hv a

theorem ignores_openChild : Ignores x (fun _ => True) (openChild scope) := by
  intro m s hm hs
  have hopen : openChild scope { m with store := s } =
      (.ok (m.store.fresh :: scope), { m with store := s.push [] }) := by
    rw [← hs.fresh]
    rfl
  rw [hopen]
  exact ⟨rfl, fun _ _ => trivial, rfl, hm.push, hs.push, m.store.leaves_push x, s.leaves_push x⟩

theorem ignores_makeFunction {d : Definition} (hd : d.Lacks x) :
    Ignores x (Value.Lacks x) (makeFunction d scope) := by
  refine .of_store (fun _ _ => rfl) (fun _ => rfl) fun m v hv => ?_
  obtain rfl := Except.ok.inj hv
  exact fun d' hd' => Option.some.inj hd' ▸ hd

theorem ignores_identify (hv : v.Lacks x) : Ignores x (Value.Lacks x) (identify v) := by
  unfold identify
  split
  · split
    · refine .of_store (fun _ _ => rfl) (fun _ => rfl) fun m w hw => ?_
      obtain rfl := Except.ok.inj hw
      exact Value.lacks_plain rfl
    · exact .pure hv
  · exact .pure hv

theorem ignores_countStep (maxSteps : Option Int) (pos : Option Position) :
    Ignores x (fun _ => True) (countStep maxSteps pos) := by
  refine .of_store (fun m s => ?_) (fun m => ?_) fun _ _ _ => trivial
  · cases maxSteps with
    | none => rfl
    | some limit =>
      rw [countStep_some, countStep_some]
  · rw [countStep_snd]

theorem ignores_bindAll {xs : List String} (hxs : x ∉ xs) {vs : List Value}
    (hvs : ∀ v ∈ vs, v.Lacks x) : Ignores x (fun _ => True) (bindAll scope (xs.zip vs)) := by
  induction xs generalizing vs with
  | nil => exact .pure trivial
  | cons y xs ih =>
    obtain ⟨hy, hxs⟩ := not_or.mp (mt List.mem_cons.mpr hxs)
    cases vs with
    | nil => exact .pure trivial
    | cons v vs =>
      obtain ⟨hv, hvs⟩ := List.forall_mem_cons.mp hvs
      exact (ignores_define (Ne.symm hy) hv).bind fun _ _ => ih hxs hvs

theorem ignores_callBuiltin (b : Builtin) (vs : List Value) :
    Ignores x (Value.Lacks x) (callBuiltin b vs) := by
  cases b with
  | clock =>
    have hclock : Ignores x (Value.Lacks x) (do return .number (← readClock)) := by
      refine .of_store (fun _ _ => rfl) (fun _ => rfl) fun m v hv => ?_
      obtain rfl := Except.ok.inj hv
      exact Value.lacks_plain rfl
    cases vs <;> exact hclock
  | str => cases vs <;> exact .pure (Value.lacks_plain rfl)
  | print =>
    cases vs with
    | nil => exact .pure (Value.lacks_plain rfl)
    | cons v vs =>
      have hprint : Ignores x (fun _ => True) (print v.text) :=
        .of_store (fun _ _ => rfl) (fun _ => rfl) fun _ _ _ => trivial
      exact hprint.bind fun _ _ => .pure (Value.lacks_plain rfl)

end

namespace Operator

theorem definition?_binary {op : String} {a b v : Value} (h : binary op a b = .ok v) :
    v.definition? = none := by
  rcases binary_ok h with ⟨_, rfl⟩ | ⟨_, rfl⟩ <;> rfl

theorem definition?_unary {op : String} {a v : Value} (h : unary op a = .ok v) :
    v.definition? = none := by
  rcases unary_ok h with ⟨_, rfl⟩ | ⟨_, rfl⟩ <;> rfl

end Operator

def IgnoresNodes (x : String) (recur : Node → Scope → Evaluation Value) : Prop :=
  ∀ n e, n.Lacks x → Ignores x (Value.Lacks x) (recur n e)

namespace IgnoresNodes

variable {x : String} {recur : Node → Scope → Evaluation Value} (h : IgnoresNodes x recur)

include h

theorem all {ns : List Node} (hns : ∀ n ∈ ns, n.Lacks x) (e : Scope) :
    Ignores x (fun vs => ∀ v ∈ vs, Value.Lacks x v) (all recur e ns) := by
  induction ns with
  | nil => exact .pure (List.forall_mem_nil _)
  | cons n ns ih =>
    obtain ⟨hn, hns⟩ := List.forall_mem_cons.mp hns
    apply (h n e hn).bind
    intro v hv
    apply (ih hns).bind
    intro vs hvs
    exact .pure (List.forall_mem_cons.mpr ⟨hv, hvs⟩)

theorem sequence {ns : List Node} (hns : ∀ n ∈ ns, n.Lacks x) (e : Scope) {last : Value}
    (hlast : last.Lacks x) : Ignores x (Value.Lacks x) (sequence recur e last ns) := by
  induction ns generalizing last with
  | nil => exact .pure hlast
  | cons n ns ih =>
    obtain ⟨hn, hns⟩ := List.forall_mem_cons.mp hns
    apply (h n e hn).bind
    intro v hv
    cases v with
    | returned v => exact .pure hv
    | _ => exact ih hns hv

theorem binary (op : String) {a b : Node} (ha : a.Lacks x) (hb : b.Lacks x) (e : Scope) :
    Ignores x (Value.Lacks x) (binary recur op a b e) := by
  have htruth : Ignores x (Value.Lacks x) (do return .bool (← recur b e).isTruthy) :=
    (h b e hb).bind fun _ _ => .pure (Value.lacks_plain rfl)
  unfold Evaluation.binary
  split
  · apply (h a e ha).bind
    intro v _
    split
    · exact htruth
    · exact .pure (Value.lacks_plain rfl)
  · apply (h a e ha).bind
    intro v _
    split
    · exact .pure (Value.lacks_plain rfl)
    · exact htruth
  · apply (h a e ha).bind
    intro v _
    apply (h b e hb).bind
    intro w _
    refine (Ignores.ofExcept fun r hr => ?_).bind fun _ => ignores_identify
    exact Value.lacks_plain (Operator.definition?_binary hr)

theorem condition {n : Node} (hn : n.Lacks x) (e : Scope) :
    Ignores x (fun _ => True) (condition recur n e) := by
  apply (h n e hn).bind
  intro v _
  cases v with
  | bool b => exact .pure trivial
  | _ => exact .throw _

theorem turn {c n : Node} (hc : c.Lacks x) (hn : n.Lacks x) (e : Scope) :
    Ignores x (fun r => ∀ v ∈ r, Value.Lacks x v) (turn recur c n e) := by
  apply (h.condition hc e).bind
  intro b _
  split
  · apply ignores_openChild.bind
    intro inner _
    apply (h n inner hn).bind
    intro v hv
    cases v with
    | returned v => exact .pure fun _ hw => Option.some.inj hw ▸ hv
    | _ => exact .pure nofun
  · exact .pure fun _ hw => Option.some.inj hw ▸ Value.lacks_plain rfl

theorem callFunction (maxDepth : Int) {d : Definition} (hd : d.Lacks x) (e : Scope)
    {vs : List Value} (hvs : ∀ v ∈ vs, v.Lacks x) :
    Ignores x (Value.Lacks x) (callFunction recur maxDepth d e vs) := by
  unfold Evaluation.callFunction
  apply Ignores.asCall
  apply ignores_openChild.bind
  intro inner _
  apply (ignores_bindAll hd.1 hvs).bind
  intro _ _
  apply (h.sequence hd.2 inner (Value.lacks_plain rfl)).bind
  intro v hv
  cases v with
  | returned v => exact .pure hv
  | _ => exact .pure (Value.lacks_plain rfl)

theorem call (maxDepth : Int) {n : Node} (hn : n.Lacks x) {ns : List Node}
    (hns : ∀ n ∈ ns, n.Lacks x) (e : Scope) :
    Ignores x (Value.Lacks x) (call recur maxDepth n ns e) := by
  have harity (vs : List Value) (arity : Nat) {c : Evaluation Value}
      (hc : Ignores x (Value.Lacks x) c) : Ignores x (Value.Lacks x) (withArity arity vs c) := by
    unfold withArity
    split
    · exact hc
    · exact .fail _
  apply (h n e hn).bind
  intro v hv
  cases v with
  | function i d closure =>
    apply (h.all hns e).bind
    intro vs hvs
    exact harity vs _ (h.callFunction maxDepth (hv d rfl) closure hvs)
  | builtin b =>
    apply (h.all hns e).bind
    intro vs _
    exact harity vs _ (ignores_callBuiltin b vs)
  | _ => exact .fail _

theorem perform (limits : Limits) {n : Node} (hn : n.Lacks x) (e : Scope) :
    Ignores x (Value.Lacks x) (perform recur limits n e) := by
  obtain ⟨hnames, hparts, hbody⟩ := hn
  cases n with
  | literal p v =>
    -- A literal may be a function, whose names and body are among those of the node.
    refine .pure fun d hd => ?_
    rw [Option.mem_def] at hd
    simp only [Node.names, Node.literalBody, hd, Option.elim_some] at hnames hbody
    exact ⟨hnames, hbody⟩
  | name p y => exact ignores_lookup (Ne.symm (List.ne_of_not_mem_cons hnames))
  | binary p op a b =>
    obtain ⟨ha, hb⟩ := List.forall_mem_cons.mp hparts
    exact h.binary op ha (hb b (List.mem_singleton_self b)) e
  | unary p op a =>
    apply (h a e (hparts a (List.mem_singleton_self a))).bind
    intro v _
    refine (Ignores.ofExcept fun r hr => ?_).bind fun _ => ignores_identify
    exact Value.lacks_plain (Operator.definition?_unary hr)
  | assign p y a =>
    apply (h a e (hparts a (List.mem_singleton_self a))).bind
    intro v hv
    exact (ignores_assign (Ne.symm (List.ne_of_not_mem_cons hnames)) hv).bind fun _ _ => .pure hv
  | call p a ns =>
    obtain ⟨ha, hns⟩ := List.forall_mem_cons.mp hparts
    exact h.call limits.maxDepth ha hns e
  | function d => exact ignores_makeFunction ⟨fun hd => hnames (List.mem_append_right _ hd), hparts⟩
  | program p ns => exact h.sequence hparts e (Value.lacks_plain rfl)
  | expression p a => exact h a e (hparts a (List.mem_singleton_self a))
  | declareVar p y a =>
    apply (h a e (hparts a (List.mem_singleton_self a))).bind
    intro v hv
    exact (ignores_define (Ne.symm (List.ne_of_not_mem_cons hnames)) hv).bind fun _ _ =>
      .pure (Value.lacks_plain rfl)
  | declareFunction p d =>
    have hd : d.Lacks x := ⟨fun hd => hnames (List.mem_append_right _ hd), hparts⟩
    have hdeclare : Ignores x (fun _ => True) (do defineNamed e d.name (← makeFunction d e)) := by
      apply (ignores_makeFunction hd).bind
      intro v hv
      cases hname : d.name with
      | none => exact .pure trivial
      | some y =>
        refine ignores_define (fun hy => ?_) hv
        exact hnames (List.mem_append_left _ (by simp [hname, hy]))
    exact hdeclare.bind fun _ _ => .pure (Value.lacks_plain rfl)
  | block p ns =>
    apply ignores_openChild.bind
    intro inner _
    exact h.sequence hparts inner (Value.lacks_plain rfl)
  | conditional p c a b =>
    obtain ⟨hc, hbranches⟩ := List.forall_mem_cons.mp hparts
    obtain ⟨ha, hb⟩ := List.forall_mem_cons.mp hbranches
    apply (h.condition hc e).bind
    intro t _
    split
    · exact h a e ha
    · cases b with
      | none => exact .pure (Value.lacks_plain rfl)
      | some b => exact h b e (hb b (List.mem_singleton_self b))
  | loop p c a =>
    obtain ⟨hc, ha⟩ := List.forall_mem_cons.mp hparts
    exact (h.turn hc (ha a (List.mem_singleton_self a)) e).repeatUntil limits.patience
  | ret p a =>
    cases a with
    | none => exact .pure (Value.lacks_plain rfl)
    | some a => exact (h a e (hparts a (List.mem_singleton_self a))).bind fun _ hv => .pure hv
  | hole p sort => exact .fail _

end IgnoresNodes

theorem ignores_evaluateWithin (x : String) (limits : Limits) (room : Nat) :
    IgnoresNodes x (Node.evaluateWithin limits room) := by
  induction room with
  | zero => exact fun _ _ _ => .throw _
  | succ room ih =>
    intro n e hn
    apply (ignores_countStep limits.maxSteps n.pos).bind
    intro _ _
    exact (ih.perform limits hn e).mapStop _

namespace Program

theorem ignores_runFrom {x : String} {ns : List Node} (hns : ∀ n ∈ ns, n.Lacks x) (limits : Limits)
    (e : Scope) {last : Value} (hlast : last.Lacks x) :
    Ignores x (Value.Lacks x) (runFrom limits e last ns) := by
  induction ns generalizing last with
  | nil => exact .pure hlast
  | cons n ns ih =>
    obtain ⟨hn, hns⟩ := List.forall_mem_cons.mp hns
    have hevaluate : Ignores x (Value.Lacks x) (n.evaluate limits e) :=
      (ignores_evaluateWithin x limits limits.evaluationRoom n e hn).mapStop _
    apply hevaluate.bind
    intro v hv
    cases v with
    | returned v => exact .throw _
    | _ => exact ih hns hv

/-- A name that is mentioned neither in a program nor in the functions of the store makes no difference to
the program, and what is bound to the name stays as it is. -/
theorem run_apart {x : String} {p : Program} (hp : ∀ n ∈ p.statements, n.Lacks x) {m : Machine}
    (hm : m.store.Lacks x) {s : Store} (hs : m.store.AgreesApart x s) (limits : Limits) (e : Scope) :
    let r := run limits p.statements e m
    let r' := run limits p.statements e { m with store := s }
    r'.1 = r.1 ∧ r'.2 = { r.2 with store := r'.2.store } ∧
      r.2.store.AgreesApart x r'.2.store ∧ m.store.Leaves x r.2.store ∧ s.Leaves x r'.2.store := by
  intro r r'
  have hnil : Value.nil.Lacks x := Value.lacks_plain rfl
  have hsame := ignores_runFrom hp limits e hnil { m with steps := 0, depth := 0 } s hm hs
  exact ⟨hsame.result, hsame.machine, hsame.store, hsame.left, hsame.right⟩

theorem run_apart_assign :
    let p : Program := ⟨[.expression (some ⟨1, 1⟩)
      (.assign (some ⟨1, 1⟩) "y" (.literal (some ⟨1, 5⟩) (.bool true)))]⟩
    let m : Machine := { Machine.initial (0 : Float) with store := ⟨#[[("x", .nil), ("y", .nil)]]⟩ }
    let s : Store := ⟨#[[("y", .nil)]]⟩
    let r := run {} p.statements [0] m
    let r' := run {} p.statements [0] { m with store := s }
    (∀ n ∈ p.statements, n.Lacks "x") ∧ m.store.Lacks "x" ∧ m.store.AgreesApart "x" s ∧
      r'.1 = r.1 ∧ r'.2 = { r.2 with store := r'.2.store } ∧
      r.2.store.AgreesApart "x" r'.2.store ∧ m.store.Leaves "x" r.2.store ∧
      s.Leaves "x" r'.2.store := by
  intro p m s r r'
  have hp : ∀ n ∈ p.statements, n.Lacks "x" := by
    have hliteral : (Node.literal (some ⟨1, 5⟩) (.bool true)).Lacks "x" :=
      .intro List.not_mem_nil (List.forall_mem_nil _) (List.forall_mem_nil _)
    have hassign : (Node.assign (some ⟨1, 1⟩) "y" (.literal (some ⟨1, 5⟩) (.bool true))).Lacks "x" :=
      .intro (by decide) (List.forall_mem_singleton.mpr hliteral) (List.forall_mem_nil _)
    exact List.forall_mem_singleton.mpr
      (.intro List.not_mem_nil (List.forall_mem_singleton.mpr hassign) (List.forall_mem_nil _))
  have hm : m.store.Lacks "x" := by
    intro a y hy v hv
    cases a with
    | succ a => cases hv
    | zero =>
      change Frame.get? [("x", .nil), ("y", .nil)] y = some v at hv
      rw [Frame.get?_cons, if_neg hy, Frame.get?_cons] at hv
      split at hv
      · exact Option.some.inj hv ▸ Value.lacks_plain rfl
      · cases hv
  have hs : m.store.AgreesApart "x" s := by
    refine ⟨rfl, fun a y hy => ?_⟩
    cases a with
    | succ a => rfl
    | zero =>
      change Frame.get? [("y", .nil)] y = Frame.get? [("x", .nil), ("y", .nil)] y
      rw [Frame.get?_cons ("x", .nil), if_neg hy]
  exact ⟨hp, hm, hs, run_apart hp hm hs {} [0]⟩

end Program

end Scriptlet
