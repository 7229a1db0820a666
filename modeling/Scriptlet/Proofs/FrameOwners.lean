import Scriptlet.Proofs.ScopeChains

namespace Scriptlet

open Evaluation

def Note.Sees (a : Address) : Note → Prop
  | action .. => False
  | evaluated _ scope _ _ => a ∈ scope

section

variable {α β : Type} {a : Address} {post : α → Prop}

def LeavesFrame (a : Address) (post : α → Prop) (e : Evaluation α) : Prop :=
  ∀ m, a < m.store.fresh →
    a < (e m).2.store.fresh ∧ (e m).2.store.frame a = m.store.frame a ∧ ∀ v, (e m).1 = .ok v → post v

theorem LeavesFrame.of_store {e : Evaluation α} (h : ∀ m, (e m).2.store = m.store) :
    LeavesFrame a (fun _ => True) e := by
  intro m hm
  rw [h m]
  exact ⟨hm, rfl, fun _ _ => trivial⟩

theorem leaves_lookup (scope : Scope) (x : String) : LeavesFrame a (fun _ => True) (lookup scope x) := by
  apply LeavesFrame.of_store
  intro m
  unfold lookup
  split <;> rfl

theorem frame_update_of_ne (s : Store) {b : Address} (h : a ≠ b) (x : String) (v : Value) :
    (s.update b x v).frame a = s.frame a := by
  by_cases hb : b < s.fresh
  · rw [Store.frame_update s b a x v hb, if_neg h]
  · rw [Store.update_of_fresh_le s x v (Nat.not_lt.mp hb)]

theorem leaves_assign {scope : Scope} (ha : a ∉ scope) (x : String) (v : Value) :
    LeavesFrame a (fun _ => True) (assign scope x v) := by
  intro m hm
  unfold assign
  split
  · rename_i s hs
    obtain ⟨b, hb, rfl⟩ := Option.map_eq_some_iff.mp hs
    have hne : a ≠ b := fun h => ha (h ▸ List.mem_of_find?_eq_some hb)
    refine ⟨?_, frame_update_of_ne m.store hne x v, fun _ _ => trivial⟩
    rwa [Store.fresh_update]
  · exact ⟨hm, rfl, fun _ _ => trivial⟩

theorem leaves_define {scope : Scope} (ha : scope.head? ≠ some a) (x : String) (v : Value) :
    LeavesFrame a (fun _ => True) (define scope x v) := by
  intro m hm
  cases scope with
  | nil => exact ⟨hm, rfl, fun _ _ => trivial⟩
  | cons b scope =>
    have hne : a ≠ b := fun h => ha (congrArg some h.symm)
    refine ⟨?_, frame_update_of_ne m.store hne x v, fun _ _ => trivial⟩
    change a < (m.store.update b x v).fresh
    rwa [Store.fresh_update]

theorem leaves_openChild (scope : Scope) :
    LeavesFrame a (fun inner => inner.head? ≠ some a) (openChild scope) := by
  intro m hm
  have hne : a ≠ m.store.fresh := Nat.ne_of_lt hm
  refine ⟨?_, ?_, ?_⟩
  · change a < (m.store.push []).fresh
    rw [Store.fresh_push]
    exact Nat.lt_succ_of_lt hm
  · change (m.store.push []).frame a = _
    rw [Store.frame_push, if_neg hne]
  · rintro _ ⟨⟩
    exact fun h => hne (Option.some.inj h).symm

theorem leaves_bindAll {scope : Scope} (ha : scope.head? ≠ some a) (bs : List (String × Value)) :
    LeavesFrame a (fun _ => True) (bindAll scope bs) := by
  induction bs with
  | nil => exact .of_store fun _ => rfl
  | cons b bs ih =>
    intro m hm
    obtain ⟨hfresh, hframe, -⟩ := leaves_define ha b.1 b.2 m hm
    obtain ⟨hfresh', hframe', -⟩ := ih _ hfresh
    exact ⟨hfresh', hframe'.trans hframe, fun _ _ => trivial⟩

structure Accounts (a : Address) (post : α → Prop) (m : Machine)
    (x : (Except Stop α × Machine) × List Note) : Prop where
  fresh : a < x.1.2.store.fresh
  frame : (∃ note ∈ x.2, note.Sees a) ∨ x.1.2.store.frame a = m.store.frame a
  value : ∀ v, x.1.1 = .ok v → post v

def Accountable (a : Address) (post : α → Prop) (e : Recorded α) : Prop :=
  ∀ m, a < m.store.fresh → Accounts a post m (e m)

namespace Accountable

variable {e : Recorded α}

theorem pure {v : α} (h : post v) : Accountable a post (pure v) :=
  fun _ hm => ⟨hm, .inr rfl, fun _ hv => Except.ok.inj hv ▸ h⟩

theorem act {e : Evaluation α} (h : LeavesFrame a post e) : Accountable a post (Recorded.act e) :=
  fun m hm => ⟨(h m hm).1, .inr (h m hm).2.1, (h m hm).2.2⟩

theorem of_store {e : Evaluation α} (h : ∀ m, (e m).2.store = m.store) :
    Accountable a (fun _ => True) (Recorded.act e) :=
  act (.of_store h)

theorem bind {post' : β → Prop} {f : α → Recorded β} (he : Accountable a post e)
    (hf : ∀ v, post v → Accountable a post' (f v)) : Accountable a post' (e >>= f) := by
  intro m hm
  obtain ⟨hfresh, hframe, hvalue⟩ := he m hm
  rw [Recorded.bind_apply]
  rcases hx : e m with ⟨⟨s | v, n⟩, notes⟩
  all_goals rw [hx] at hfresh hframe hvalue
  · exact ⟨hfresh, hframe, nofun⟩
  · obtain ⟨hfresh', hframe', hvalue'⟩ := hf v (hvalue v rfl) n hfresh
    refine ⟨hfresh', ?_, hvalue'⟩
    rcases hframe with ⟨note, hnote, hsees⟩ | hframe
    · exact .inl ⟨note, List.mem_append_left _ hnote, hsees⟩
    · rcases hframe' with ⟨note, hnote, hsees⟩ | hframe'
      · exact .inl ⟨note, List.mem_append_right _ hnote, hsees⟩
      · exact .inr (hframe'.trans hframe)

theorem mapStop (h : Accountable a post e) (f : Stop → Stop) :
    Accountable a post (Recorded.mapStop f e) := by
  intro m hm
  obtain ⟨hfresh, hframe, hvalue⟩ := h m hm
  refine ⟨hfresh, hframe, fun v hv => hvalue v ?_⟩
  change (e m).1.1.mapError f = .ok v at hv
  rcases hx : (e m).1.1 with s | w
  all_goals rw [hx] at hv
  · cases hv
  · exact hv

theorem asCall (h : Accountable a post e) (limit : Int) :
    Accountable a post (Recorded.asCall limit e) := by
  intro m hm
  by_cases hle : limit ≤ m.depth
  · rw [Recorded.asCall_of_le hle]
    exact ⟨hm, .inr rfl, nofun⟩
  · rw [Recorded.asCall_of_lt (Int.not_le.mp hle)]
    obtain ⟨hfresh, hframe, hvalue⟩ := h { m with depth := m.depth + 1 } hm
    exact ⟨hfresh, hframe, hvalue⟩

theorem repeatUntil {turn : Recorded (Option Value)} (h : Accountable a (fun _ => True) turn)
    (n : Nat) : Accountable a (fun _ => True) (Recorded.repeatUntil turn n) := by
  induction n with
  | zero => exact of_store fun _ => rfl
  | succ n ih =>
    apply h.bind
    intro r _
    cases r with
    | none => exact ih
    | some v => exact pure trivial

end Accountable

end

section

variable {a : Address} {recur : Node → Scope → Recorded Value}
  (h : ∀ n e, Accountable a (fun _ => True) (recur n e))

include h

theorem accountable_all (scope : Scope) (ns : List Node) :
    Accountable a (fun _ => True) (all recur scope ns) := by
  induction ns with
  | nil => exact .pure trivial
  | cons n ns ih =>
    exact (h n scope).bind fun _ _ => ih.bind fun _ _ => .pure trivial

theorem accountable_sequence (scope : Scope) (last : Value) (ns : List Node) :
    Accountable a (fun _ => True) (sequence recur scope last ns) := by
  induction ns generalizing last with
  | nil => exact .pure trivial
  | cons n ns ih =>
    apply (h n scope).bind
    intro v _
    cases v
    case returned v => exact .pure trivial
    all_goals exact ih _

theorem accountable_binary (op : String) (left right : Node) (scope : Scope) :
    Accountable a (fun _ => True) (binary recur op left right scope) := by
  unfold binary
  split
  all_goals
    apply (h left scope).bind
    intro v _
  · split
    · exact (h right scope).bind fun _ _ => .pure trivial
    · exact .pure trivial
  · split
    · exact .pure trivial
    · exact (h right scope).bind fun _ _ => .pure trivial
  · apply (h right scope).bind
    intro w _
    apply Accountable.of_store
    intro m
    rw [bind_apply]
    unfold Evaluation.ofExcept
    rcases Operator.binary op v w with s | u
    · rfl
    · exact store_identify u m

theorem accountable_condition (node : Node) (scope : Scope) :
    Accountable a (fun _ => True) (condition recur node scope) := by
  apply (h node scope).bind
  intro v _
  cases v
  case bool b => exact .pure trivial
  all_goals exact .of_store fun _ => rfl

theorem accountable_callFunction (maxDepth : Int) (d : Definition) (scope : Scope)
    (vs : List Value) : Accountable a (fun _ => True) (callFunction recur maxDepth d scope vs) := by
  apply Accountable.asCall
  apply (Accountable.act (leaves_openChild scope)).bind
  intro inner hinner
  apply (Accountable.act (leaves_bindAll hinner _)).bind
  intro _ _
  apply (accountable_sequence h inner .nil d.body).bind
  intro v _
  cases v <;> exact .pure trivial

theorem accountable_call (maxDepth : Int) (callee : Node) (args : List Node) (scope : Scope) :
    Accountable a (fun _ => True) (call recur maxDepth callee args scope) := by
  have harity (arity : Nat) (vs : List Value) {e : Recorded Value}
      (he : Accountable a (fun _ => True) e) :
      Accountable a (fun _ => True) (withArity arity vs e) := by
    unfold withArity
    split
    · exact he
    · exact .of_store fun _ => rfl
  apply (h callee scope).bind
  intro v _
  cases v
  case function i d closure =>
    apply (accountable_all h scope args).bind
    intro vs _
    exact harity _ vs (accountable_callFunction h maxDepth d closure vs)
  case builtin b =>
    apply (accountable_all h scope args).bind
    intro vs _
    exact harity _ vs (.of_store (store_callBuiltin b vs))
  all_goals exact .of_store fun _ => rfl

theorem accountable_turn (cond body : Node) (scope : Scope) :
    Accountable a (fun _ => True) (turn recur cond body scope) := by
  apply (accountable_condition h cond scope).bind
  intro b _
  split
  · apply (Accountable.act (leaves_openChild scope)).bind
    intro inner _
    apply (h body inner).bind
    intro v _
    cases v <;> exact .pure trivial
  · exact .pure trivial

theorem accountable_perform (limits : Limits) (node : Node) {scope : Scope} (ha : a ∉ scope) :
    Accountable a (fun _ => True) (perform recur limits node scope) := by
  -- What is defined goes to the innermost frame, what is assigned to a frame of the scope.
  have hhead : scope.head? ≠ some a := fun h => ha (List.mem_of_head? h)
  cases node with
  | literal pos v => exact .pure trivial
  | name pos x => exact .act (leaves_lookup scope x)
  | binary pos op left right => exact accountable_binary h op left right scope
  | unary pos op operand =>
    apply (h operand scope).bind
    intro v _
    apply Accountable.of_store
    intro m
    rw [bind_apply]
    unfold Evaluation.ofExcept
    rcases Operator.unary op v with s | u
    · rfl
    · exact store_identify u m
  | assign pos x value =>
    apply (h value scope).bind
    intro v _
    exact (Accountable.act (leaves_assign ha x v)).bind fun _ _ => .pure trivial
  | call pos callee args => exact accountable_call h limits.maxDepth callee args scope
  | function d => exact .of_store fun _ => rfl
  | program pos statements => exact accountable_sequence h scope .nil statements
  | expression pos body => exact h body scope
  | declareVar pos x value =>
    apply (h value scope).bind
    intro v _
    exact (Accountable.act (leaves_define hhead x v)).bind fun _ _ => .pure trivial
  | declareFunction pos d =>
    have hdeclare : LeavesFrame a (fun _ => True) (do
        defineNamed scope d.name (← makeFunction d scope)) := by
      intro m hm
      cases hname : d.name with
      | none => exact LeavesFrame.of_store (fun _ => rfl) m hm
      | some x => exact leaves_define hhead x (.function m.made d scope) { m with made := m.made + 1 } hm
    exact (Accountable.act hdeclare).bind fun _ _ => .pure trivial
  | block pos statements =>
    apply (Accountable.act (leaves_openChild scope)).bind
    intro inner _
    exact accountable_sequence h inner .nil statements
  | conditional pos cond thenBranch elseBranch =>
    apply (accountable_condition h cond scope).bind
    intro b _
    split
    · exact h thenBranch scope
    · cases elseBranch with
      | none => exact .pure trivial
      | some e => exact h e scope
  | loop pos cond body => exact (accountable_turn h cond body scope).repeatUntil limits.patience
  | ret pos value =>
    cases value with
    | none => exact .pure trivial
    | some value => exact (h value scope).bind fun _ _ => .pure trivial
  | hole pos sort => exact .of_store fun _ => rfl

theorem accountable_visit (limits : Limits) (node : Node) {scope : Scope} (ha : a ∉ scope) :
    Accountable a (fun _ => True) (visit recur limits node scope) := by
  have hstep : Accountable a (fun _ => True) (Recorded.act (countStep limits.maxSteps node.pos)) := by
    apply Accountable.of_store
    intro m
    rw [countStep_snd]
  exact hstep.bind fun _ _ => (accountable_perform h limits node ha).mapStop _

end

theorem accountable_recordWithin (a : Address) (limits : Limits) (room : Nat) (node : Node)
    (scope : Scope) : Accountable a (fun _ => True) (node.recordWithin limits room scope) := by
  induction room generalizing node scope with
  | zero => exact .of_store fun _ => rfl
  | succ room ih =>
    intro m hm
    by_cases ha : a ∈ scope
    · have hnoting (node : Node) (scope : Scope) {e : Recorded Value} {e' : Evaluation Value}
          (h : ∀ m, Growing m (e m).2 (e m).1.2) (m : Machine) :
          Growing m (Recorded.noting node scope e m).2 (Recorded.noting node scope e m).1.2 :=
        (h m).append (.evaluated node scope _ _)
      have hgrowing := (simulates_growing limits).recordWithin hnoting (room + 1) node scope m
      have hextends := (List.pairwise_cons.mp hgrowing).1 _
        (List.mem_append_right _ (List.mem_singleton_self _))
      have hsees : ∃ note ∈ (node.recordWithin limits (room + 1) scope m).2, note.Sees a :=
        ⟨_, List.mem_append_right _ (List.mem_singleton_self _), ha⟩
      exact ⟨Nat.lt_of_lt_of_le hm hextends.fresh, .inl hsees, fun _ _ => trivial⟩
    · obtain ⟨hfresh, hframe, hvalue⟩ := accountable_visit ih limits node ha m hm
      refine ⟨hfresh, hframe.imp_left ?_, hvalue⟩
      rintro ⟨note, hnote, hsees⟩
      exact ⟨note, List.mem_append_left _ hnote, hsees⟩

end Scriptlet
