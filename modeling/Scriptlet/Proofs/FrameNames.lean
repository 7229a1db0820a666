import Scriptlet.Proofs.MachineGrowth
import Scriptlet.Proofs.TreeShape

namespace Scriptlet

def Node.declared? : Node → Option String
  | declareVar _ x _ => some x
  | declareFunction _ d => d.name
  | _ => none

def Node.inPlace : Node → List Node
  | .binary _ _ a b => [a, b]
  | .unary _ _ a | .assign _ _ a | .expression _ a | .declareVar _ _ a => [a]
  | .call _ a ns => a :: ns
  | .program _ ns => ns
  | .conditional _ c a b => c :: a :: b.toList
  | .loop _ c _ => [c]
  | .ret _ a => a.toList
  | .function _ | .declareFunction .. | .block .. | .literal .. | .name .. | .hole .. => []

namespace Store

structure Keeps (w : Option Address) (s t : Store) : Prop where
  fresh : s.fresh ≤ t.fresh
  names : ∀ a < s.fresh, some a ≠ w → (t.frame a).names = (s.frame a).names

variable {w : Option Address} {s t u : Store}

theorem Keeps.refl (w : Option Address) (s : Store) : s.Keeps w s :=
  ⟨Nat.le_refl _, fun _ _ _ => rfl⟩

theorem Keeps.trans (h : s.Keeps w t) (h' : t.Keeps w u) : s.Keeps w u := by
  refine ⟨Nat.le_trans h.fresh h'.fresh, fun a ha hw => ?_⟩
  rw [h'.names a (Nat.lt_of_lt_of_le ha h.fresh) hw, h.names a ha hw]

theorem Keeps.weaken (h : s.Keeps none t) (w : Option Address) : s.Keeps w t :=
  ⟨h.fresh, fun a ha _ => h.names a ha nofun⟩

theorem Keeps.of_push (h : (s.push []).Keeps (some s.fresh) t) : s.Keeps none t := by
  have hfresh := h.fresh
  rw [fresh_push] at hfresh
  refine ⟨Nat.le_of_succ_le hfresh, fun a ha _ => ?_⟩
  have hne : a ≠ s.fresh := Nat.ne_of_lt ha
  rw [h.names a (by rw [fresh_push]; exact Nat.lt_succ_of_lt ha) (by simpa using hne), frame_push,
    if_neg hne]

theorem keeps_update (s : Store) (a : Address) (x : String) (v : Value) :
    s.Keeps (some a) (s.update a x v) := by
  by_cases ha : a < s.fresh
  · refine ⟨Nat.le_of_eq (fresh_update s a x v).symm, fun b _ hb => ?_⟩
    rw [frame_update s a b x v ha, if_neg (by simpa using hb)]
  · rw [update_of_fresh_le s x v (Nat.not_lt.mp ha)]
    exact .refl _ s

theorem keeps_define (s : Store) (scope : Scope) (x : String) (v : Value) :
    s.Keeps scope.head? (s.define scope x v) := by
  cases scope with
  | nil => exact .refl _ s
  | cons a scope => exact keeps_update s a x v

theorem keeps_assign {scope : Scope} {x : String} {v : Value} (h : s.assign? scope x v = some t) :
    s.Keeps none t := by
  obtain ⟨a, ha, rfl⟩ := Option.map_eq_some_iff.mp h
  have hcontains : (s.frame a).contains x :=
    List.find?_some (p := fun a => (s.frame a).contains x) ha
  have hmem : x ∈ (s.frame a).names := (Frame.contains_iff_mem_names _ _).mp hcontains
  refine ⟨Nat.le_of_eq (fresh_update s a x v).symm, fun b hb _ => ?_⟩
  by_cases hlt : a < s.fresh
  · rw [frame_update s a b x v hlt]
    split
    · rename_i heq
      rw [heq, Frame.names_set, if_pos hmem]
    · rfl
  · rw [update_of_fresh_le s x v (Nat.not_lt.mp hlt)]

end Store

namespace Evaluation

def KeepsNames {α : Type} (w : Option Address) (e : Evaluation α) : Prop :=
  ∀ m : Machine, m.store.Keeps w (e m).2.store

section

variable {α β : Type} {w : Option Address}

theorem KeepsNames.of_store {e : Evaluation α} (h : ∀ m : Machine, (e m).2.store = m.store) :
    KeepsNames w e :=
  fun m => h m ▸ .refl w m.store

theorem KeepsNames.pure (a : α) : KeepsNames w (pure a) :=
  .of_store fun _ => rfl

theorem KeepsNames.throw (s : Stop) : KeepsNames w (throw s : Evaluation α) :=
  .of_store fun _ => rfl

theorem KeepsNames.weaken {e : Evaluation α} (h : KeepsNames none e) : KeepsNames w e :=
  fun m => (h m).weaken w

theorem KeepsNames.bind {e : Evaluation α} {f : α → Evaluation β} (he : KeepsNames w e)
    (hf : ∀ a, KeepsNames w (f a)) : KeepsNames w (e >>= f) := by
  intro m
  have hm := he m
  rw [bind_apply]
  rcases hx : e m with ⟨s | a, n⟩
  all_goals rw [hx] at hm
  · exact hm
  · exact hm.trans (hf a n)

theorem KeepsNames.openChild {scope : Scope} {f : Scope → Evaluation β}
    (hf : ∀ a, KeepsNames (some a) (f (a :: scope))) : KeepsNames w (openChild scope >>= f) :=
  .weaken fun m => (hf m.store.fresh { m with store := m.store.push [] }).of_push

theorem KeepsNames.mapStop {e : Evaluation α} (h : KeepsNames w e) (f : Stop → Stop) :
    KeepsNames w (mapStop f e) :=
  h

theorem KeepsNames.asCall {e : Evaluation α} (h : KeepsNames w e) (limit : Int) :
    KeepsNames w (asCall limit e) := by
  intro m
  by_cases hm : limit ≤ m.depth
  · rw [asCall_of_le hm]
    exact .refl w m.store
  · rw [asCall_of_lt (Int.not_le.mp hm)]
    exact h { m with depth := m.depth + 1 }

theorem KeepsNames.repeatUntil {turn : Evaluation (Option Value)} (h : KeepsNames w turn) (n : Nat) :
    KeepsNames w (repeatUntil turn n) := by
  induction n with
  | zero => exact .throw _
  | succ n ih =>
    intro m
    have hm := h m
    unfold Evaluation.repeatUntil
    rcases hx : turn m with ⟨s | (_ | v), n⟩
    all_goals rw [hx] at hm
    · exact hm
    · exact hm.trans (ih n)
    · exact hm

theorem keepsNames_identify (r : Except Stop Value) :
    KeepsNames w (do identify (← ofExcept r)) := by
  refine .bind (.of_store fun _ => rfl) fun v => ?_
  unfold identify
  split
  · split
    · exact .of_store fun _ => rfl
    · exact .pure _
  · exact .pure _

theorem keepsNames_define (scope : Scope) (x : String) (v : Value) :
    KeepsNames scope.head? (define scope x v) :=
  fun m => m.store.keeps_define scope x v

theorem keepsNames_assign (scope : Scope) (x : String) (v : Value) :
    KeepsNames w (assign scope x v) := by
  refine .weaken fun m => ?_
  unfold assign
  split
  · rename_i h
    exact Store.keeps_assign h
  · exact .refl none m.store

theorem keepsNames_lookup (scope : Scope) (x : String) : KeepsNames w (lookup scope x) := by
  apply KeepsNames.of_store
  intro m
  unfold lookup
  split <;> rfl

theorem keepsNames_bindAll (scope : Scope) (bs : List (String × Value)) :
    KeepsNames scope.head? (bindAll scope bs) := by
  induction bs with
  | nil => exact .pure ()
  | cons b bs ih => exact (keepsNames_define scope b.1 b.2).bind fun _ => ih

theorem keepsNames_callBuiltin (b : Builtin) (vs : List Value) : KeepsNames w (callBuiltin b vs) := by
  cases b <;> cases vs <;> exact .of_store fun _ => rfl

theorem keepsNames_countStep (maxSteps : Option Int) (pos : Option Position) :
    KeepsNames w (countStep maxSteps pos) :=
  .of_store fun m => by rw [countStep_snd]

end

section

variable {recur : Node → Scope → Evaluation Value} {limits : Limits} {w : Option Address}
  {scope : Scope}

theorem keepsNames_all {ns : List Node} (h : ∀ n ∈ ns, KeepsNames w (recur n scope)) :
    KeepsNames w (all recur scope ns) := by
  induction ns with
  | nil => exact .pure _
  | cons n ns ih =>
    obtain ⟨hn, hns⟩ := List.forall_mem_cons.mp h
    exact hn.bind fun v => (ih hns).bind fun vs => .pure _

theorem keepsNames_sequence {ns : List Node} (h : ∀ n ∈ ns, KeepsNames w (recur n scope))
    (last : Value) : KeepsNames w (sequence recur scope last ns) := by
  induction ns generalizing last with
  | nil => exact .pure _
  | cons n ns ih =>
    obtain ⟨hn, hns⟩ := List.forall_mem_cons.mp h
    apply hn.bind
    intro v
    cases v
    case returned v => exact .pure _
    all_goals exact ih hns _

theorem keepsNames_binary {op : String} {left right : Node}
    (hleft : KeepsNames w (recur left scope)) (hright : KeepsNames w (recur right scope)) :
    KeepsNames w (binary recur op left right scope) := by
  unfold binary
  split
  · apply hleft.bind
    intro v
    split
    · exact hright.bind fun _ => .pure _
    · exact .pure _
  · apply hleft.bind
    intro v
    split
    · exact .pure _
    · exact hright.bind fun _ => .pure _
  · exact hleft.bind fun a => hright.bind fun b => keepsNames_identify _

theorem keepsNames_condition {node : Node} (h : KeepsNames w (recur node scope)) :
    KeepsNames w (condition recur node scope) := by
  apply h.bind
  intro v
  cases v <;> first | exact .pure _ | exact .throw _

variable (hrec : ∀ n e, KeepsNames e.head? (recur n e))

include hrec

theorem keepsNames_callFunction (depth : Int) (d : Definition) (closure : Scope)
    (args : List Value) : KeepsNames w (callFunction recur depth d closure args) := by
  apply KeepsNames.asCall
  apply KeepsNames.openChild
  intro a
  apply (keepsNames_bindAll (a :: closure) _).bind
  intro _
  apply (keepsNames_sequence (fun n _ => hrec n (a :: closure)) .nil).bind
  intro v
  cases v <;> exact .pure _

theorem keepsNames_call (depth : Int) {callee : Node} {args : List Node}
    (hcallee : KeepsNames w (recur callee scope))
    (hargs : ∀ n ∈ args, KeepsNames w (recur n scope)) :
    KeepsNames w (call recur depth callee args scope) := by
  apply hcallee.bind
  intro v
  cases v
  case function i d closure =>
    apply (keepsNames_all hargs).bind
    intro vs
    unfold withArity
    split
    · exact keepsNames_callFunction hrec depth d closure vs
    · exact .throw _
  case builtin b =>
    apply (keepsNames_all hargs).bind
    intro vs
    unfold withArity
    split
    · exact keepsNames_callBuiltin b vs
    · exact .throw _
  all_goals exact .throw _

theorem keepsNames_turn {cond body : Node} (hcond : KeepsNames w (recur cond scope)) :
    KeepsNames w (turn recur cond body scope) := by
  apply (keepsNames_condition hcond).bind
  intro b
  split
  · apply KeepsNames.openChild
    intro a
    apply (hrec body (a :: scope)).bind
    intro v
    cases v <;> exact .pure _
  · exact .pure _

theorem keepsNames_perform {node : Node}
    (hparts : ∀ n ∈ node.inPlace, KeepsNames w (recur n scope))
    (hdeclared : node.declared? = none ∨ w = scope.head?) :
    KeepsNames w (perform recur limits node scope) := by
  cases node with
  | literal pos v => exact .pure v
  | name pos x => exact keepsNames_lookup scope x
  | binary pos op a b =>
    obtain ⟨ha, hb⟩ := List.forall_mem_cons.mp hparts
    exact keepsNames_binary ha (hb b (List.mem_singleton_self b))
  | unary pos op a => exact (hparts a (by simp [Node.inPlace])).bind fun v => keepsNames_identify _
  | assign pos x a =>
    apply (hparts a (by simp [Node.inPlace])).bind
    intro v
    exact (keepsNames_assign scope x v).bind fun _ => .pure _
  | call pos a ns =>
    obtain ⟨ha, hns⟩ := List.forall_mem_cons.mp hparts
    exact keepsNames_call hrec limits.maxDepth ha hns
  | function d => exact .of_store fun _ => rfl
  | program pos ns => exact keepsNames_sequence hparts .nil
  | expression pos a => exact hparts a (by simp [Node.inPlace])
  | declareVar pos x a =>
    -- A declaration binds its name in the innermost frame, which is the one left out.
    obtain rfl : w = scope.head? := hdeclared.resolve_left nofun
    apply (hparts a (by simp [Node.inPlace])).bind
    intro v
    exact (keepsNames_define scope x v).bind fun _ => .pure _
  | declareFunction pos d =>
    refine .bind (.bind (.of_store fun _ => rfl) fun v => ?_) fun _ => .pure _
    cases hname : d.name with
    | none => exact .pure ()
    | some x =>
      obtain rfl : w = scope.head? := hdeclared.resolve_left (by simp [Node.declared?, hname])
      exact keepsNames_define scope x v
  | block pos ns => exact .openChild fun a => keepsNames_sequence (fun n _ => hrec n (a :: scope)) .nil
  | conditional pos c a b =>
    obtain ⟨hc, hbranches⟩ := List.forall_mem_cons.mp hparts
    obtain ⟨ha, hb⟩ := List.forall_mem_cons.mp hbranches
    apply (keepsNames_condition hc).bind
    intro v
    split
    · exact ha
    · cases b with
      | none => exact .pure _
      | some b => exact hb b (List.mem_singleton_self b)
  | loop pos c a => exact .repeatUntil (keepsNames_turn hrec (hparts c (by simp [Node.inPlace]))) _
  | ret pos a =>
    cases a with
    | none => exact .pure _
    | some a => exact (hparts a (List.mem_singleton_self a)).bind fun v => .pure _
  | hole pos sort => exact .throw _

end

theorem keepsNames_evaluateWithin (limits : Limits) (room : Nat) (node : Node) (scope : Scope) :
    KeepsNames scope.head? (node.evaluateWithin limits room scope) := by
  induction room generalizing node scope with
  | zero => exact .throw _
  | succ room ih =>
    apply (keepsNames_countStep limits.maxSteps node.pos).bind
    intro _
    exact (keepsNames_perform ih (fun n _ => ih n scope) (.inr rfl)).mapStop _

end Evaluation

namespace Formed

open Evaluation

variable {P : Token → Prop} {f : Bool} {r : Role} {node : Node}

theorem declared?_eq_none (h : Formed P f r node) (hr : r ≠ .declaration) :
    node.declared? = none := by
  cases h <;> first | rfl | exact absurd rfl hr

theorem inPlace (h : Formed P f r node) :
    ∀ n ∈ node.inPlace, ∃ f' r', r' ≠ .declaration ∧ Formed P f' r' n := by
  intro n hn
  cases h with
  | literal | name | ret | function | declareFunction | block => cases hn
  | binary _ _ ha hb =>
    obtain rfl | rfl : n = _ ∨ n = _ := by simpa [Node.inPlace] using hn
    · exact ⟨f, .expression, nofun, ha⟩
    · exact ⟨f, .expression, nofun, hb⟩
  | unary _ _ ha | assign _ ha | expression _ ha | retValue _ _ ha | declareVar _ _ ha =>
    obtain rfl : n = _ := by simpa [Node.inPlace] using hn
    exact ⟨_, .expression, nofun, ha⟩
  | call _ ha hns =>
    rcases List.mem_cons.mp hn with rfl | hn
    · exact ⟨f, .expression, nofun, ha⟩
    · exact ⟨f, .expression, nofun, hns n hn⟩
  | oneBranch _ _ hc ha =>
    obtain rfl | rfl : n = _ ∨ n = _ := by simpa [Node.inPlace] using hn
    · exact ⟨f, .expression, nofun, hc⟩
    · exact ⟨f, .statement, nofun, ha⟩
  | twoBranches _ _ hc ha hb =>
    obtain rfl | rfl | rfl : n = _ ∨ n = _ ∨ n = _ := by simpa [Node.inPlace] using hn
    · exact ⟨f, .expression, nofun, hc⟩
    · exact ⟨f, .statement, nofun, ha⟩
    · exact ⟨f, .statement, nofun, hb⟩
  | loop _ _ hc _ =>
    obtain rfl : n = _ := by simpa [Node.inPlace] using hn
    exact ⟨f, .expression, nofun, hc⟩

theorem keepsNames (h : Formed P f r node) (hdeclared : node.declared? = none) (limits : Limits)
    (room : Nat) (scope : Scope) : KeepsNames none (node.evaluateWithin limits room scope) := by
  induction room generalizing node f r scope with
  | zero => exact .throw _
  | succ room ih =>
    apply (keepsNames_countStep limits.maxSteps node.pos).bind
    intro _
    apply KeepsNames.mapStop
    apply keepsNames_perform (keepsNames_evaluateWithin limits room)
    · intro n hn
      obtain ⟨f', r', hr', hn'⟩ := h.inPlace n hn
      exact ih hn' (hn'.declared?_eq_none hr') scope
    · exact .inl hdeclared

end Formed

namespace Store

def GainsAtMost (scope : Scope) (x : Option String) (s t : Store) : Prop :=
  ∀ a < s.fresh, (t.frame a).names = (s.frame a).names ∨
    ∃ y, x = some y ∧ scope.head? = some a ∧ y ∉ (s.frame a).names ∧
      (t.frame a).names = (s.frame a).names ++ [y]

variable {scope : Scope} {x : Option String} {s t : Store}

theorem Keeps.gainsAtMost (h : s.Keeps none t) : s.GainsAtMost scope x t :=
  fun a ha => .inl (h.names a ha nofun)

theorem Keeps.trans_gainsAtMost {u : Store} (h : s.Keeps none t) (h' : t.GainsAtMost scope x u) :
    s.GainsAtMost scope x u := by
  intro a ha
  rw [← h.names a ha nofun]
  exact h' a (Nat.lt_of_lt_of_le ha h.fresh)

theorem gainsAtMost_define (s : Store) (scope : Scope) (y : String) (v : Value) :
    s.GainsAtMost scope (some y) (s.define scope y v) := by
  intro a ha
  by_cases hhead : scope.head? = some a
  · have hdefine : (s.define scope y v).frame a = (s.frame a).set y v := by
      rw [define, hhead]
      exact (frame_update s a a y v ha).trans (if_pos rfl)
    rw [hdefine, Frame.names_set]
    split
    · exact .inl rfl
    · rename_i hy
      exact .inr ⟨y, rfl, hhead, hy, rfl⟩
  · exact .inl ((s.keeps_define scope y v).names a ha (Ne.symm hhead))

end Store

namespace Evaluation

/-- Of all frames that exist, an evaluation only gives the innermost of the scope the name `x`. -/
def GainsAtMost {α : Type} (scope : Scope) (x : Option String) (e : Evaluation α) : Prop :=
  ∀ m : Machine, m.store.GainsAtMost scope x (e m).2.store

theorem KeepsNames.gainsAtMost {α : Type} {scope : Scope} {x : Option String} {e : Evaluation α}
    (h : KeepsNames none e) : GainsAtMost scope x e :=
  fun m => (h m).gainsAtMost

theorem KeepsNames.bind_gainsAtMost {α β : Type} {scope : Scope} {x : Option String}
    {e : Evaluation α} {f : α → Evaluation β} (he : KeepsNames none e)
    (hf : ∀ a, GainsAtMost scope x (f a)) : GainsAtMost scope x (e >>= f) := by
  intro m
  have hm := he m
  rw [bind_apply]
  rcases hx : e m with ⟨s | a, n⟩
  all_goals rw [hx] at hm
  · exact hm.gainsAtMost
  · exact hm.trans_gainsAtMost (hf a n)

end Evaluation

open Evaluation in
theorem Formed.gainsAtMost {P : Token → Prop} {f : Bool} {r : Role} {node : Node}
    (h : Formed P f r node) (limits : Limits) (room : Nat) (scope : Scope) :
    GainsAtMost scope node.declared? (node.evaluateWithin limits room scope) := by
  by_cases hdeclared : node.declared? = none
  · exact (h.keepsNames hdeclared limits room scope).gainsAtMost
  · cases room with
    | zero => exact (KeepsNames.throw _).gainsAtMost
    | succ room =>
      apply (keepsNames_countStep limits.maxSteps node.pos).bind_gainsAtMost
      intro _
      cases h with
      | declareVar _ _ ha =>
        apply (ha.keepsNames (ha.declared?_eq_none nofun) limits room scope).bind_gainsAtMost
        exact fun v m => m.store.gainsAtMost_define scope _ v
      | @declareFunction _ _ _ d _ _ hname _ =>
        obtain ⟨pos, name, params, bodyPos, body⟩ := d
        cases hname
        exact fun m => m.store.gainsAtMost_define scope _ (.function m.made _ scope)
      | _ => exact absurd rfl hdeclared

/-- However the evaluation of a node of a parsed program ends, in whichever scope and from whichever
machine, every frame that exists has the names that it had, in their order. Only a declaration may
add the name that it declares, to the innermost frame of the scope and behind the names there. -/
theorem Program.evaluate_names {grammarRoom : Nat} {maxNesting : Int} {s : TokenStream} {p : Program}
    (hp : ofTokens grammarRoom maxNesting s = .ok p) {n node : Node} (hn : n ∈ p.statements)
    (hnode : node.Within n) (limits : Limits) (room : Nat) (scope : Scope) (m : Machine) :
    m.store.GainsAtMost scope node.declared? (node.evaluateWithin limits room scope m).2.store := by
  obtain ⟨c, d, us, -, -, hformed⟩ := formed_of_ofTokens hp
  obtain ⟨f, r, h⟩ := (hformed n hn).within hnode
  exact h.gainsAtMost limits room scope m

open Token in
theorem Program.evaluate_names_declareVar :
    let node := Node.declareVar (some ⟨1, 1⟩) "x" (.literal (some ⟨1, 9⟩) .nil)
    let m := (Machine.initial (0 : Float)).openRoot.2
    ofTokens 20 4 ⟨[inFirstLine (.keyword .varWord) "var" 1, inFirstLine .identifier "x" 5,
        inFirstLine (.symbol .equal) "=" 7, inFirstLine (.keyword .nilWord) "nil" 9,
        .endOfInput ⟨1, 12⟩ 11], none⟩ = .ok ⟨[node]⟩ ∧
      m.store.GainsAtMost [0] (some "x") (node.evaluateWithin {} 2 [0] m).2.store := by
  intro node m
  have hp : ofTokens 20 4 ⟨[inFirstLine (.keyword .varWord) "var" 1, inFirstLine .identifier "x" 5,
      inFirstLine (.symbol .equal) "=" 7, inFirstLine (.keyword .nilWord) "nil" 9,
      .endOfInput ⟨1, 12⟩ 11], none⟩ = .ok ⟨[node]⟩ := rfl
  exact ⟨hp, evaluate_names hp (List.mem_singleton_self node) .self {} 2 [0] m⟩

end Scriptlet
