import Scriptlet.Evaluation.Node

/-!
What an evaluation only ever adds to: output, steps, values known by their number, frames, and the
names of a frame. The actions that a tree is made of add to the rest and leave the counters of
steps and of active calls alone; neither limit is theirs to exceed.
-/

namespace Scriptlet

namespace Store

structure Extends (s t : Store) : Prop where
  fresh : s.fresh ≤ t.fresh
  names : ∀ a, (s.frame a).names <+: (t.frame a).names

theorem Extends.refl (s : Store) : s.Extends s :=
  ⟨Nat.le_refl _, fun _ => List.prefix_refl _⟩

theorem Extends.trans {s t u : Store} (h : s.Extends t) (h' : t.Extends u) : s.Extends u :=
  ⟨Nat.le_trans h.fresh h'.fresh, fun a => (h.names a).trans (h'.names a)⟩

theorem frame_of_fresh_le (s : Store) {a : Address} (h : s.fresh ≤ a) : s.frame a = [] := by
  have hnone : s.frames[a]? = none := Array.getElem?_eq_none h
  simp [frame, hnone]

theorem update_of_fresh_le (s : Store) {a : Address} (x : String) (v : Value) (h : s.fresh ≤ a) :
    s.update a x v = s := by
  have hsize : ¬a < s.frames.size := Nat.not_lt.mpr h
  simp [update, Array.modify, Array.modifyM, hsize, pure, Id.run]

theorem extends_push (s : Store) (f : Frame) : s.Extends (s.push f) := by
  refine ⟨by simp, fun a => ?_⟩
  rw [frame_push]
  split
  · rename_i h
    rw [frame_of_fresh_le s (Nat.le_of_eq h.symm)]
    exact List.nil_prefix
  · exact List.prefix_refl _

theorem names_prefix_set (f : Frame) (x : String) (v : Value) : f.names <+: (f.set x v).names := by
  rw [Frame.names_set]
  split
  · exact List.prefix_refl _
  · exact List.prefix_append _ _

theorem extends_update (s : Store) (a : Address) (x : String) (v : Value) :
    s.Extends (s.update a x v) := by
  by_cases ha : a < s.fresh
  · refine ⟨by simp, fun b => ?_⟩
    rw [frame_update s a b x v ha]
    split
    · exact names_prefix_set _ x v
    · exact List.prefix_refl _
  · rw [update_of_fresh_le s x v (Nat.not_lt.mp ha)]
    exact .refl s

theorem extends_define (s : Store) (scope : Scope) (x : String) (v : Value) :
    s.Extends (s.define scope x v) := by
  cases scope with
  | nil => exact .refl s
  | cons a scope => exact extends_update s a x v

theorem extends_assign {s t : Store} {scope : Scope} {x : String} {v : Value}
    (h : s.assign? scope x v = some t) : s.Extends t := by
  obtain ⟨a, -, rfl⟩ := Option.map_eq_some_iff.mp h
  exact extends_update s a x v

theorem Extends.resolve_isSome {s t : Store} (h : s.Extends t) {scope : Scope} {x : String}
    (hx : (s.resolve scope x).isSome) : (t.resolve scope x).isSome := by
  simp only [resolve, List.find?_isSome] at hx ⊢
  obtain ⟨a, ha, hcontains⟩ := hx
  refine ⟨a, ha, ?_⟩
  rw [Frame.contains_iff_mem_names] at hcontains ⊢
  exact (h.names a).subset hcontains

end Store

namespace Machine

structure Later (m n : Machine) : Prop where
  store : m.store.Extends n.store
  output : ∃ t, n.output = m.output ++ t
  steps : m.steps ≤ n.steps
  depth : n.depth = m.depth
  made : m.made ≤ n.made
  clock : ∃ k, n.clock = m.clock.drop k

theorem Later.refl (m : Machine) : m.Later m :=
  ⟨.refl _, ⟨"", String.append_empty.symm⟩, Nat.le_refl _, rfl, Nat.le_refl _, 0, m.clock.drop_zero.symm⟩

theorem Later.trans {m n k : Machine} (h : m.Later n) (h' : n.Later k) : m.Later k := by
  obtain ⟨t, ht⟩ := h.output
  obtain ⟨u, hu⟩ := h'.output
  obtain ⟨i, hi⟩ := h.clock
  obtain ⟨j, hj⟩ := h'.clock
  exact ⟨h.store.trans h'.store, ⟨t ++ u, by rw [hu, ht, String.append_assoc]⟩,
    Nat.le_trans h.steps h'.steps, h'.depth.trans h.depth, Nat.le_trans h.made h'.made,
    i + j, by rw [hj, hi, Clock.drop_drop]⟩

theorem Later.of_store {m : Machine} {s : Store} (h : m.store.Extends s) :
    m.Later { m with store := s } :=
  { Later.refl m with store := h }

theorem Later.of_made (m : Machine) : m.Later { m with made := m.made + 1 } :=
  { Later.refl m with made := Nat.le_succ _ }

theorem Later.of_clock (m : Machine) (k : Nat) : m.Later { m with clock := m.clock.drop k } :=
  { Later.refl m with clock := ⟨k, rfl⟩ }

end Machine

def RuntimeFault.OfLimit : RuntimeFault → Prop
  | stepLimit _ | callDepth _ => True
  | _ => False

def Stop.Unfinished : Stop → Prop
  | .error .recursion _ | .exhausted | .endless => True
  | _ => False

def Stop.OverLimit : Stop → Prop
  | .error .recursion _ | .exhausted | .endless => True
  | .error fault _ => fault.OfLimit
  | .unknownOperator _ => False

theorem Stop.Unfinished.overLimit {s : Stop} (h : s.Unfinished) : s.OverLimit := by
  cases s with
  | error fault => cases fault <;> trivial
  | unknownOperator => exact h
  | exhausted | endless => trivial

namespace Evaluation

theorem bind_apply {α β : Type} (e : Evaluation α) (f : α → Evaluation β) (m : Machine) :
    (e >>= f) m =
      match e m with
      | (.ok a, n) => f a n
      | (.error s, n) => (.error s, n) := by
  change ExceptT.bindCont f (e m).1 (e m).2 = _
  rcases e m with ⟨r | r, n⟩ <;> rfl

structure Quiet {α : Type} (m : Machine) (x : Except Stop α × Machine) : Prop where
  later : m.Later x.2
  steps : x.2.steps = m.steps
  stop : ∀ s, x.1 = .error s → ¬s.OverLimit

def Plain {α : Type} (e : Evaluation α) : Prop :=
  ∀ m, Quiet m (e m)

section

variable {α β : Type} {m n : Machine}

theorem quiet_ok (a : α) (m : Machine) : Quiet m (.ok a, m) :=
  ⟨.refl m, rfl, nofun⟩

theorem quiet_error {s : Stop} (hs : ¬s.OverLimit) : Quiet m ((.error s : Except Stop α), m) :=
  ⟨.refl m, rfl, fun _ h => Except.error.inj h ▸ hs⟩

theorem Quiet.ok {a : α} (hlater : m.Later n) (hsteps : n.steps = m.steps) : Quiet m (.ok a, n) :=
  ⟨hlater, hsteps, nofun⟩

theorem Plain.pure (a : α) : Plain (pure a : Evaluation α) :=
  quiet_ok a

theorem Plain.throw {s : Stop} (hs : ¬s.OverLimit) : Plain (throw s : Evaluation α) :=
  fun _ => quiet_error hs

theorem Plain.bind {e : Evaluation α} {f : α → Evaluation β} (he : Plain e) (hf : ∀ a, Plain (f a)) :
    Plain (e >>= f) := by
  intro m
  obtain ⟨hlater, hsteps, hstop⟩ := he m
  rw [bind_apply]
  rcases hm : e m with ⟨s | a, n⟩
  all_goals
    rw [hm] at hlater hsteps hstop
  · exact ⟨hlater, hsteps, fun _ h => Except.error.inj h ▸ hstop s rfl⟩
  · obtain ⟨hlater', hsteps', hstop'⟩ := hf a n
    exact ⟨hlater.trans hlater', hsteps'.trans hsteps, hstop'⟩

theorem Plain.ofExcept {r : Except Stop α} (hr : ∀ s, r = .error s → ¬s.OverLimit) :
    Plain (ofExcept r) :=
  fun m => ⟨.refl m, rfl, hr⟩

end

theorem plain_lookup (scope : Scope) (x : String) : Plain (lookup scope x) := by
  intro m
  unfold lookup
  split
  · exact quiet_ok _ m
  · exact quiet_error id

theorem plain_assign (scope : Scope) (x : String) (v : Value) : Plain (assign scope x v) := by
  intro m
  unfold assign
  split
  · rename_i s h
    exact .ok (.of_store (Store.extends_assign h)) rfl
  · exact quiet_error id

theorem plain_define (scope : Scope) (x : String) (v : Value) : Plain (define scope x v) :=
  fun m => .ok (.of_store (Store.extends_define m.store scope x v)) rfl

theorem plain_defineNamed (scope : Scope) (x : Option String) (v : Value) :
    Plain (defineNamed scope x v) := by
  cases x with
  | none => exact .pure ()
  | some x => exact plain_define scope x v

theorem plain_openChild (scope : Scope) : Plain (openChild scope) :=
  fun m => .ok (.of_store (Store.extends_push m.store [])) rfl

theorem plain_makeFunction (d : Definition) (scope : Scope) : Plain (makeFunction d scope) :=
  fun m => .ok (.of_made m) rfl

theorem plain_identify (v : Value) : Plain (identify v) := by
  unfold identify
  split
  · split
    · exact fun m => .ok (.of_made m) rfl
    · exact .pure _
  · exact .pure v

theorem plain_print (line : String) : Plain (print line) := by
  intro m
  refine .ok { Machine.Later.refl m with output := ⟨line ++ "\n", ?_⟩ } rfl
  exact String.append_assoc

theorem plain_readClock : Plain readClock :=
  fun m => .ok (.of_clock m 1) rfl

theorem plain_bindAll (scope : Scope) (bs : List (String × Value)) : Plain (bindAll scope bs) := by
  induction bs with
  | nil => exact .pure ()
  | cons b bs ih => exact (plain_define scope b.1 b.2).bind fun _ => ih

theorem plain_callBuiltin (b : Builtin) (vs : List Value) : Plain (callBuiltin b vs) := by
  cases b with
  | clock => cases vs <;> exact plain_readClock.bind fun _ => .pure _
  | str => cases vs <;> exact fun m => quiet_ok _ m
  | print =>
    cases vs with
    | nil => exact .pure _
    | cons v vs => exact (plain_print v.text).bind fun _ => .pure _

theorem store_identify (v : Value) (m : Machine) : (identify v m).2.store = m.store := by
  unfold identify
  split
  · split <;> rfl
  · rfl

theorem store_callBuiltin (b : Builtin) (vs : List Value) (m : Machine) :
    (callBuiltin b vs m).2.store = m.store := by
  cases b <;> cases vs <;> rfl

theorem countStep_some (limit : Int) (pos : Option Position) (m : Machine) :
    countStep (some limit) pos m =
      (if limit < (m.steps + 1 : Nat) then .error (.error (.stepLimit limit) pos) else .ok (),
        { m with steps := m.steps + 1 }) := by
  change (if limit < (m.steps + 1 : Nat) then _ else _) = _
  split <;> rfl

theorem countStep_snd (maxSteps : Option Int) (pos : Option Position) (m : Machine) :
    (countStep maxSteps pos m).2 = { m with steps := m.steps + 1 } := by
  cases maxSteps with
  | none => rfl
  | some limit => rw [countStep_some]

theorem later_countStep (maxSteps : Option Int) (pos : Option Position) (m : Machine) :
    m.Later (countStep maxSteps pos m).2 := by
  rw [countStep_snd]
  exact { Machine.Later.refl m with steps := Nat.le_succ _ }

theorem asCall_of_le {α : Type} {limit : Int} {e : Evaluation α} {m : Machine}
    (h : limit ≤ m.depth) :
    asCall limit e m = (.error (.error (.callDepth limit) none), m) :=
  if_pos h

theorem asCall_of_lt {α : Type} {limit : Int} {e : Evaluation α} {m : Machine}
    (h : m.depth < limit) :
    asCall limit e m =
      ((e { m with depth := m.depth + 1 }).1,
        { (e { m with depth := m.depth + 1 }).2 with
          depth := (e { m with depth := m.depth + 1 }).2.depth - 1 }) :=
  if_neg (Int.not_le.mpr h)

end Evaluation

namespace Operator

theorem binary_not_overLimit {op : String} {a b : Value} {s : Stop}
    (h : binary op a b = .error s) : ¬s.OverLimit := by
  rcases binary_error h with rfl | rfl | ⟨rfl, -⟩
  · exact id
  · exact id
  · exact id

theorem unary_not_overLimit {op : String} {a : Value} {s : Stop} (h : unary op a = .error s) :
    ¬s.OverLimit := by
  obtain rfl := unary_error h
  exact id

end Operator

end Scriptlet
