import Scriptlet.Proofs.Agreement

namespace Scriptlet

open Evaluation (all condition openChild)

theorem Level.operator_spelling (l : Level) : ∀ kind ∈ l.operators,
    ∃ s ∈ ["or", "and", "==", "!=", "<", "<=", ">", ">=", "+", "-", "*", "/"],
      kind.spelling? = some s := by
  cases l <;> decide

theorem Stop.tame_error {P : Token → Prop} {fault : RuntimeFault} (h : fault.Regular) :
    (Stop.error fault none).Tame P :=
  .inr ⟨fault, h, rfl⟩

namespace Operator

variable {P : Token → Prop}

theorem binary_tame {l : Level} {t : Token} {a b : Value} {s : Stop} (ht : P t)
    (hop : t.kind ∈ l.operators) (hand : t.text ≠ "and") (hor : t.text ≠ "or")
    (h : binary t.text a b = .error s) : s.Tame P := by
  rcases binary_error h with rfl | rfl | ⟨rfl, hunknown⟩
  · exact Stop.tame_error trivial
  · exact Stop.tame_error trivial
  · refine .inl ⟨t, ht, fun hspelled => ?_⟩
    obtain ⟨s, hs, hspelling⟩ := l.operator_spelling _ hop
    rw [← hspelled.text s hspelling] at hs
    simp only [List.mem_cons, List.not_mem_nil, or_false, not_or] at hs hunknown
    grind

theorem unary_tame {op : String} {a : Value} {s : Stop} (h : unary op a = .error s) : s.Tame P :=
  unary_error h ▸ Stop.tame_error trivial

theorem binary_closed {ss : List Scope} {op : String} {a b v : Value} (h : binary op a b = .ok v) :
    v.Closed P ss := by
  rcases binary_ok h with ⟨_, rfl⟩ | ⟨_, rfl⟩ <;> trivial

theorem unary_closed {ss : List Scope} {op : String} {a v : Value} (h : unary op a = .ok v) :
    v.Closed P ss := by
  rcases unary_ok h with ⟨_, rfl⟩ | ⟨_, rfl⟩ <;> trivial

end Operator

section

variable {P : Token → Prop} {ss : List Scope} {E : Stop → Prop} {scope : Scope}

theorem acts_ofExcept {α : Type} {post : α → Prop} {x : Except Stop α}
    (hok : ∀ a, x = .ok a → post a) (herror : ∀ s, x = .error s → E s) :
    Acts P ss E post (Evaluation.ofExcept x) :=
  fun _ hm => ⟨hm, hok, herror⟩

theorem acts_identify {v : Value} (hv : v.Closed P ss) :
    Acts P ss E (·.Closed P ss) (Evaluation.identify v) := by
  unfold Evaluation.identify
  split
  · split
    · exact fun m hm => acted_ok (hm.of_store rfl) trivial
    · exact .pure hv
  · exact .pure hv

theorem acts_lookup (x : String) :
    Acts P ss (Stop.Tame P) (·.Closed P ss) (Evaluation.lookup scope x) := by
  intro m hm
  unfold Evaluation.lookup
  split
  · rename_i hget
    exact acted_ok hm (hm.get? hget)
  · exact acted_error hm (Stop.tame_error trivial)

theorem acts_assign (x : String) {v : Value} (hv : v.Closed P ss) :
    Acts P ss (Stop.Tame P) (fun _ => True) (Evaluation.assign scope x v) := by
  intro m hm
  unfold Evaluation.assign
  split
  · rename_i hassign
    obtain ⟨a, -, rfl⟩ := Option.map_eq_some_iff.mp hassign
    exact acted_ok (hm.update a x hv) trivial
  · exact acted_error hm (Stop.tame_error trivial)

theorem acts_define (x : String) {v : Value} (hv : v.Closed P ss) :
    Acts P ss E (fun _ => True) (Evaluation.define scope x v) :=
  fun _ hm => acted_ok (hm.define scope x hv) trivial

theorem acts_makeFunction {d : Definition} (he : scope ∈ ss)
    (hbody : ∀ n ∈ d.body, Formed P true .declaration n) :
    Acts P ss E (·.Closed P ss) (Evaluation.makeFunction d scope) :=
  fun _ hm => acted_ok (hm.of_store rfl) ⟨he, hbody⟩

theorem acts_bindAll {bs : List (String × Value)} (hbs : ∀ b ∈ bs, b.2.Closed P ss) :
    Acts P ss E (fun _ => True) (Evaluation.bindAll scope bs) := by
  induction bs with
  | nil => exact .pure trivial
  | cons b bs ih =>
    obtain ⟨hb, hbs⟩ := List.forall_mem_cons.mp hbs
    exact (acts_define b.1 hb).bind fun _ _ => ih hbs

theorem acts_callBuiltin (b : Builtin) (vs : List Value) :
    Acts P ss E (·.Closed P ss) (Evaluation.callBuiltin b vs) := by
  cases b <;> cases vs <;> exact fun m hm => acted_ok (hm.of_store rfl) trivial

theorem acts_countStep (maxSteps : Option Int) {t : Token} (ht : P t) :
    Acts P ss (Stop.Located P) (fun _ => True) (Evaluation.countStep maxSteps (some t.pos)) := by
  intro m hm
  cases maxSteps with
  | none => exact acted_ok (hm.of_store rfl) trivial
  | some limit =>
    rw [Evaluation.countStep_some]
    split
    · exact acted_error (hm.of_store rfl) ⟨trivial, t, ht, rfl⟩
    · exact acted_ok (hm.of_store rfl) trivial

theorem follows_openChild (he : scope ∈ ss) {back : List Scope → Value → Scope → Prop} :
    Follows P ss E (fun ts e => e ∈ ts) back (Recorded.act (openChild scope))
      (Unwinding.act (openChild scope)) := by
  intro m hm
  have hchild : m.store.fresh :: scope = ss.length :: scope := by rw [hm.fresh]
  have hclosed : (openChild scope m).2.Closed P (ss ++ [ss.length :: scope]) :=
    hchild ▸ hm.push (List.forall_mem_nil _)
  refine ⟨ss ++ [ss.length :: scope], .child .refl he, rfl, hclosed, .value ?_, ?_⟩
  · rw [hchild]
    exact List.mem_append_right ss (List.mem_singleton_self _)
  · intro note hnote
    obtain rfl := List.mem_singleton.mp hnote
    exact ⟨hm.take (List.prefix_append _ _), hclosed.take (List.prefix_refl _)⟩

end

def closed (P : Token → Prop) (ss : List Scope) (v : Value) : Prop :=
  v.Closed P ss

def returns (P : Token → Prop) (f : Bool) (ss : List Scope) (v a : Value) : Prop :=
  f = true ∧ v.Closed P ss ∧ a = .returned v

def FollowsNodes (P : Token → Prop) (recur : Node → Scope → Recorded Value)
    (recur' : Node → Scope → Unwinding Value) : Prop :=
  ∀ ss f r n e, Formed P f r n → e ∈ ss → Follows P ss (Stop.Located P) (closed P)
    (fun ts v a => r ≠ .expression ∧ returns P f ts v a) (recur n e) (recur' n e)

namespace FollowsNodes

variable {P : Token → Prop} {recur : Node → Scope → Recorded Value}
  {recur' : Node → Scope → Unwinding Value} (h : FollowsNodes P recur recur') {ss : List Scope}
  {f : Bool} {r : Role} {scope : Scope} (he : scope ∈ ss)

include h he

theorem expression {n : Node} (hn : Formed P f .expression n) :
    Follows P ss (Stop.Tame P) (closed P) noBack (recur n scope) (recur' n scope) :=
  (h ss f .expression n scope hn he).mono (fun _ => .inl) (fun _ _ => id) fun _ _ _ hback => hback.1 rfl

theorem statement {n : Node} (hn : Formed P f r n) :
    Follows P ss (Stop.Tame P) (closed P) (returns P f) (recur n scope) (recur' n scope) :=
  (h ss f r n scope hn he).mono (fun _ => .inl) (fun _ _ => id) fun _ _ _ hback => hback.2

theorem all {ns : List Node} (hns : ∀ n ∈ ns, Formed P f .expression n) :
    Follows P ss (Stop.Tame P) (fun ts vs => ∀ v ∈ vs, v.Closed P ts) noBack
      (all recur scope ns) (all recur' scope ns) := by
  induction ns generalizing ss with
  | nil => exact .pure (List.forall_mem_nil _)
  | cons n ns ih =>
    obtain ⟨hn, hns⟩ := List.forall_mem_cons.mp hns
    apply (h.expression he hn).bind
    intro ts v hts hv
    apply (ih (hts.isPrefix.subset he) hns).bind
    intro us vs hus hvs
    exact .pure (List.forall_mem_cons.mpr ⟨Value.Closed.mono hv hus.isPrefix, hvs⟩)

theorem sequence {ns : List Node} (hns : ∀ n ∈ ns, Formed P f .declaration n) {last : Value}
    (hlast : last.Closed P ss) :
    Follows P ss (Stop.Tame P) (closed P) (returns P f) (Evaluation.sequence recur scope last ns)
      (Unwinding.sequence recur' scope last ns) := by
  induction ns generalizing ss last with
  | nil => exact .pure hlast
  | cons n ns ih =>
    obtain ⟨hn, hns⟩ := List.forall_mem_cons.mp hns
    apply (h.statement he hn).bindBack
    · intro ts v hts hv
      cases v
      case returned v => exact hv.elim
      all_goals exact ih (hts.isPrefix.subset he) hns hv
    · rintro ts v a ⟨hf, hv, rfl⟩
      exact ⟨.returned v, rfl, hf, hv, rfl⟩

theorem condition {n : Node} (hn : Formed P f .expression n) :
    Follows P ss (Stop.Tame P) (fun _ _ => True) noBack (condition recur n scope)
      (condition recur' n scope) := by
  obtain ⟨t, ht, hpos⟩ := hn.pos
  have hfail (ts : List Scope) (kind : ValueKind) : Acts P ts (Stop.Tame P) (fun _ : Bool => True)
      (throw (.error (.condition kind) n.pos)) :=
    .throw (.inl ⟨trivial, t, ht, hpos⟩)
  apply (h.expression he hn).bind
  intro ts v hts hv
  cases v
  case bool b => exact .pure trivial
  all_goals exact .act (hfail ts _)

theorem callFunction {d : Definition} {vs : List Value} (hvs : ∀ v ∈ vs, v.Closed P ss)
    (hbody : ∀ n ∈ d.body, Formed P true .declaration n) (limit : Int) :
    Follows P ss (Stop.Tame P) (closed P) noBack (Evaluation.callFunction recur limit d scope vs)
      (Unwinding.callFunction recur' limit d scope vs) := by
  refine Follows.asCall (.catching ?_) limit (Stop.tame_error trivial)
  apply (follows_openChild he).bind
  intro ts inner hts hinner
  have hbound : ∀ b ∈ d.params.zip vs, b.2.Closed P ts :=
    fun b hb => (hvs _ (List.of_mem_zip hb).2).mono hts.isPrefix
  refine (Follows.effect (acts_bindAll hbound)).bind ?_
  intro us _ hus _
  have hnil : Value.nil.Closed P us := trivial
  apply (h.sequence (hus.isPrefix.subset hinner) hbody hnil).bindBack
  · intro ws v hws hv
    cases v
    case returned v => exact hv.elim
    all_goals exact .pure trivial
  · rintro ws v a ⟨-, hv, rfl⟩
    exact ⟨v, rfl, rfl, hv⟩

theorem call {callee : Node} {args : List Node} (hcallee : Formed P f .expression callee)
    (hargs : ∀ n ∈ args, Formed P f .expression n) (limit : Int) :
    Follows P ss (Stop.Tame P) (closed P) noBack (Evaluation.call recur limit callee args scope)
      (Unwinding.call recur' limit callee args scope) := by
  have harity {ts : List Scope} {arity : Nat} {vs : List Value} {e : Recorded Value}
      {u : Unwinding Value} (heu : Follows P ts (Stop.Tame P) (closed P) noBack e u) :
      Follows P ts (Stop.Tame P) (closed P) noBack (Evaluation.withArity arity vs e)
        (Evaluation.withArity arity vs u) := by
    unfold Evaluation.withArity
    split
    · exact heu
    · exact .act (.throw (Stop.tame_error trivial))
  apply (h.expression he hcallee).bind
  intro ts v hts hv
  have hmem : scope ∈ ts := hts.isPrefix.subset he
  cases v
  case function i d closure =>
    apply (h.all hmem hargs).bind
    intro us vs hus hvs
    exact harity (h.callFunction (hus.isPrefix.subset hv.1) hvs hv.2 limit)
  case builtin b =>
    apply (h.all hmem hargs).bind
    intro us vs hus hvs
    exact harity (.act (acts_callBuiltin b vs))
  all_goals exact .act (.throw (Stop.tame_error trivial))

theorem turn {cond body : Node} (hcond : Formed P f .expression cond)
    (hbody : Formed P f .statement body) :
    Follows P ss (Stop.Tame P) (fun ts r => ∀ v, r = some v → v.Closed P ts)
      (fun ts v r => ∃ a, r = some a ∧ returns P f ts v a) (Evaluation.turn recur cond body scope)
      (Unwinding.turn recur' cond body scope) := by
  apply (h.condition he hcond).bind
  intro ts b hts _
  split
  · apply (follows_openChild (hts.isPrefix.subset he)).bind
    intro us inner hus hinner
    apply (h.statement hinner hbody).bindBack
    · intro ws v hws hv
      cases v
      case returned v => exact hv.elim
      all_goals exact .pure fun _ hnone => nomatch hnone
    · rintro ws v a ⟨hf, hv, rfl⟩
      exact ⟨some (.returned v), rfl, _, rfl, hf, hv, rfl⟩
  · refine .pure ?_
    rintro v ⟨⟩
    trivial

theorem binary {l : Level} {t : Token} {a b : Node} (ht : P t) (hop : t.kind ∈ l.operators)
    (ha : Formed P f .expression a) (hb : Formed P f .expression b) :
    Follows P ss (Stop.Tame P) (closed P) noBack (Evaluation.binary recur t.text a b scope)
      (Evaluation.binary recur' t.text a b scope) := by
  have hbool {ts : List Scope} {c : Bool} :
      Follows P ts (Stop.Tame P) (closed P) noBack (pure (.bool c)) (pure (.bool c)) := .pure trivial
  unfold Evaluation.binary
  split
  · apply (h.expression he ha).bind
    intro ts v hts hv
    split
    · exact (h.expression (hts.isPrefix.subset he) hb).bind fun _ _ _ _ => hbool
    · exact hbool
  · apply (h.expression he ha).bind
    intro ts v hts hv
    split
    · exact hbool
    · exact (h.expression (hts.isPrefix.subset he) hb).bind fun _ _ _ _ => hbool
  · rename_i hand hor
    apply (h.expression he ha).bind
    intro ts v hts hv
    apply (h.expression (hts.isPrefix.subset he) hb).bind
    intro us w hus hw
    apply Follows.act
    refine (acts_ofExcept (fun _ => Operator.binary_closed) fun _ => ?_).bind fun _ => acts_identify
    exact Operator.binary_tame ht hop hand hor

theorem perform {node : Node} (hnode : Formed P f r node) (limits : Limits) :
    Follows P ss (Stop.Tame P) (closed P) (fun ts v a => r ≠ .expression ∧ returns P f ts v a)
      (Evaluation.perform recur limits node scope) (Unwinding.perform recur' limits node scope) := by
  -- An expression returns nothing, while a statement may.
  have hplain {e : Recorded Value} {u : Unwinding Value}
      (heu : Follows P ss (Stop.Tame P) (closed P) noBack e u) :
      Follows P ss (Stop.Tame P) (closed P) (fun ts v a => r ≠ .expression ∧ returns P f ts v a) e u :=
    heu.mono (fun _ => id) (fun _ _ => id) fun _ _ _ => False.elim
  have hreturning {ts : List Scope} {e : Recorded Value} {u : Unwinding Value}
      (hr : r ≠ .expression) (heu : Follows P ts (Stop.Tame P) (closed P) (returns P f) e u) :
      Follows P ts (Stop.Tame P) (closed P) (fun us v a => r ≠ .expression ∧ returns P f us v a) e u :=
    heu.mono (fun _ => id) (fun _ _ => id) fun _ _ _ hback => ⟨hr, hback⟩
  cases hnode with
  | @literal _ t v ht hv =>
    refine .pure ?_
    cases v <;> trivial
  | name ht => exact .act (acts_lookup _)
  | binary ht hop ha hb => exact hplain (h.binary he ht hop ha hb)
  | unary ht hop ha =>
    apply (h.expression he ha).bind
    intro ts v hts hv
    apply Follows.act
    exact (acts_ofExcept (fun _ => Operator.unary_closed) fun _ => Operator.unary_tame).bind
      fun _ => acts_identify
  | assign ht ha =>
    apply (h.expression he ha).bind
    intro ts v hts hv
    refine (Follows.effect (acts_assign _ hv)).bind ?_
    intro us _ hus _
    exact .pure (Value.Closed.mono hv hus.isPrefix)
  | call ht ha hns => exact hplain (h.call he ha hns limits.maxDepth)
  | function ht hpos hbody => exact .act (acts_makeFunction he hbody)
  | expression hr ha => exact hplain (h.expression he ha)
  | block hr ht hns =>
    apply (follows_openChild he).bind
    intro ts inner hts hinner
    exact hreturning hr (h.sequence hinner hns trivial)
  | oneBranch hr ht hc hn =>
    apply (h.condition he hc).bind
    intro ts b hts _
    split
    · exact hreturning hr (h.statement (hts.isPrefix.subset he) hn)
    · exact .pure trivial
  | twoBranches hr ht hc hn hm =>
    apply (h.condition he hc).bind
    intro ts b hts _
    split
    · exact hreturning hr (h.statement (hts.isPrefix.subset he) hn)
    · exact hreturning hr (h.statement (hts.isPrefix.subset he) hm)
  | loop hr ht hc hn =>
    apply hreturning hr
    exact .repeatUntil (.inl trivial) (fun ts hts => h.turn (hts.isPrefix.subset he) hc hn) _
  | ret hr ht => exact .ret ⟨hr, rfl, trivial, rfl⟩
  | retValue hr ht ha =>
    apply (h.expression he ha).bind
    intro ts v hts hv
    exact .ret ⟨hr, rfl, hv, rfl⟩
  | declareVar ht hx ha =>
    apply (h.expression he ha).bind
    intro ts v hts hv
    refine (Follows.effect (acts_define _ hv)).bind ?_
    exact fun _ _ _ _ => .pure trivial
  | declareFunction ht hx hname hbody =>
    refine (Follows.effect ?_).bind fun _ _ _ _ => .pure trivial
    refine (acts_makeFunction he hbody).bind fun v hv => ?_
    rw [hname]
    exact acts_define _ hv

theorem visit {node : Node} (hnode : Formed P f r node) (limits : Limits) :
    Follows P ss (Stop.Located P) (closed P) (fun ts v a => r ≠ .expression ∧ returns P f ts v a)
      (Evaluation.visit recur limits node scope) (Unwinding.visit recur' limits node scope) := by
  obtain ⟨t, ht, hpos⟩ := hnode.pos
  unfold Evaluation.visit Unwinding.visit
  rw [hpos]
  refine (Follows.effect (acts_countStep _ ht)).bind ?_
  intro ts _ hts _
  exact (h.perform (hts.isPrefix.subset he) hnode limits).mapStop fun s hs => hs.locate ht

end FollowsNodes

theorem Follows.noting {P : Token → Prop} {ss : List Scope} {E : Stop → Prop} {f : Bool} {r : Role}
    {node : Node} {scope : Scope} (hnode : Formed P f r node) (he : scope ∈ ss) {e : Recorded Value}
    {u : Unwinding Value}
    (h : Follows P ss E (closed P) (fun ts v a => r ≠ .expression ∧ returns P f ts v a) e u) :
    Follows P ss E (closed P) (fun ts v a => r ≠ .expression ∧ returns P f ts v a)
      (Recorded.noting node scope e) u := by
  intro m hm
  obtain ⟨ts, hgrows, hmachine, hclosed, hmeets, hhistory⟩ := h m hm
  refine ⟨ts, hgrows, hmachine, hclosed, hmeets, fun note hnote => ?_⟩
  rcases List.mem_append.mp hnote with hnote | hnote
  · exact hhistory note hnote
  · obtain rfl := List.mem_singleton.mp hnote
    have htake : ts.take (e m).1.2.store.fresh = ts := by
      rw [hclosed.fresh, List.take_length]
    simp only [Note.Closed, htake]
    refine ⟨hclosed, hgrows.isPrefix.subset he, f, r, hnode, fun v hv => ?_⟩
    rw [hv] at hmeets
    generalize (u m).1 = y at hmeets
    cases hmeets with
    | value hv =>
      cases v
      case returned v => exact hv.elim
      all_goals exact hv
    | back hback =>
      obtain ⟨hr, hf, hpayload, rfl⟩ := hback
      exact ⟨hf, hr, hpayload⟩

theorem followsNodes_within (P : Token → Prop) (limits : Limits) (room : Nat) :
    FollowsNodes P (Node.recordWithin limits room) (Node.unwindWithin limits room) := by
  induction room with
  | zero => exact fun ss f r n e hn he => .act (.throw trivial)
  | succ room ih => exact fun ss f r n e hn he => (ih.visit he hn limits).noting hn he

def Stop.Settled (P : Token → Prop) (s : Stop) : Prop :=
  s.Located P ∧ s ≠ .exhausted

theorem Stop.Located.settle {P : Token → Prop} {s : Stop} (h : s.Located P) {t : Token} (ht : P t) :
    (s.settle (some t.pos)).Settled P := by
  cases s with
  | exhausted => exact ⟨⟨trivial, t, ht, rfl⟩, nofun⟩
  | _ => exact ⟨h, nofun⟩

namespace Program

variable {P : Token → Prop} {ss : List Scope} {scope : Scope} {statements : List Node}

theorem follows_from (limits : Limits) (he : scope ∈ ss)
    (hstatements : ∀ n ∈ statements, Formed P false .declaration n) {last : Value}
    (hlast : last.Closed P ss) :
    Follows P ss (Stop.Settled P) (closed P) noBack (recordFrom limits scope last statements)
      (unwindFrom limits scope last statements) := by
  induction statements generalizing ss last with
  | nil => exact .pure hlast
  | cons n ns ih =>
    obtain ⟨hn, hns⟩ := List.forall_mem_cons.mp hstatements
    obtain ⟨t, ht, hpos⟩ := hn.pos
    have hnode : Follows P ss (Stop.Settled P) (closed P) noBack (n.record limits scope)
        (n.unwind limits scope) := by
      have hwithin := followsNodes_within P limits limits.evaluationRoom ss _ _ n scope hn he
      unfold Node.record Node.unwind
      rw [hpos]
      apply (hwithin.mapStop fun s hs => hs.settle ht).mono (fun _ => id) (fun _ _ => id)
      rintro us v a ⟨-, hf, -⟩
      cases hf
    apply hnode.bind
    intro ts v hts hv
    cases v
    case returned v => exact hv.elim
    all_goals exact ih (hts.isPrefix.subset he) hns hv

theorem follows (limits : Limits) (he : scope ∈ ss)
    (hstatements : ∀ n ∈ statements, Formed P false .declaration n) :
    Follows P ss (Stop.Settled P) (closed P) noBack (record limits statements scope)
      (unwind limits statements scope) := by
  have hreset : Acts P ss (Stop.Settled P) (fun _ => True)
      (modify fun m : Machine => { m with steps := 0, depth := 0 } : Evaluation Unit) :=
    fun m hm => acted_ok (hm.of_store rfl) trivial
  refine (Follows.effect hreset).bind ?_
  intro ts _ hts _
  exact follows_from limits (hts.isPrefix.subset he) hstatements trivial

end Program

end Scriptlet
