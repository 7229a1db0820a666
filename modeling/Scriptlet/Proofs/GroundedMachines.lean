import Scriptlet.Proofs.ParallelTrees

namespace Scriptlet

open Evaluation

def Pairing.below (n : Address) (i : Nat) : Pairing :=
  { Pairing.identity with
    address := fun a a' => a = a' ∧ a < n
    id := fun j j' => j = j' ∧ j < i
    address_unique := fun h h' => by rw [h.1, h'.1]
    id_unique := fun h h' => by rw [h.1, h'.1] }

namespace Machine

def known (m : Machine) : Pairing :=
  .below m.store.fresh m.made

def Grounded (m : Machine) : Prop :=
  ∀ a, (m.store.frame a).Like m.known (m.store.frame a)

theorem Later.known {m n : Machine} (h : m.Later n) : m.known.Within n.known where
  position h := h
  address := fun ⟨heq, hlt⟩ => ⟨heq, Nat.lt_of_lt_of_le hlt h.store.fresh⟩
  id := fun ⟨heq, hlt⟩ => ⟨heq, Nat.lt_of_lt_of_le hlt h.made⟩

theorem grounded_initial (clock : Clock) : (initial clock).Grounded := by
  intro a
  rw [Store.frame_of_fresh_le _ (Nat.zero_le a)]
  exact .nil

namespace Grounded

variable {m n : Machine} (h : m.Grounded)

include h

theorem later (hlater : m.Later n) (hstore : n.store = m.store) : n.Grounded := by
  intro a
  rw [hstore]
  exact (h a).imp fun _ _ hb => ⟨hb.1, hb.2.imp hlater.known⟩

theorem get? {scope : Scope} {x : String} {v : Value} (hv : m.store.get? scope x = some v) :
    v.Like m.known v := by
  obtain ⟨a, -, hget⟩ := Option.bind_eq_some_iff.mp hv
  have hlike := (h a).get? x
  rw [hget] at hlike
  cases hlike with
  | some hv => exact hv

theorem update (a : Address) (x : String) {v : Value} (hv : v.Like m.known v) :
    { m with store := m.store.update a x v }.Grounded := by
  intro b
  have hknown : { m with store := m.store.update a x v }.known = m.known :=
    congrArg (Pairing.below · m.made) (Store.fresh_update m.store a x v)
  rw [hknown]
  by_cases ha : a < m.store.fresh
  · simp only [Store.frame_update m.store a b x v ha]
    split
    · exact (h b).set x hv
    · exact h b
  · simp only [Store.update_of_fresh_le m.store x v (Nat.not_lt.mp ha)]
    exact h b

theorem push {f : Frame} (hf : f.Like m.known f) : { m with store := m.store.push f }.Grounded := by
  have hlater : m.Later { m with store := m.store.push f } := .of_store (Store.extends_push m.store f)
  intro b
  simp only [Store.frame_push]
  split
  · exact hf.imp fun _ _ hb => ⟨hb.1, hb.2.imp hlater.known⟩
  · exact (h b).imp fun _ _ hb => ⟨hb.1, hb.2.imp hlater.known⟩

end Grounded

theorem later_openRoot (m : Machine) : m.Later m.openRoot.2 :=
  .of_store (Store.extends_push _ _)

theorem Grounded.openRoot {m : Machine} (h : m.Grounded) :
    m.openRoot.2.Grounded ∧ m.openRoot.2.known.scope m.openRoot.1 m.openRoot.1 := by
  refine ⟨h.push (List.forall₂_same.mpr fun b hb => ⟨rfl, ?_⟩), .cons ⟨rfl, ?_⟩ .nil⟩
  · obtain ⟨builtin, -, rfl⟩ := List.mem_map.mp hb
    exact .builtin builtin
  · exact Nat.lt_of_lt_of_eq (Nat.lt_succ_self _) (Store.fresh_push _ _).symm

end Machine

abbrev Pairing.Knows (ρ : Pairing) (v : Value) : Prop :=
  v.Like ρ v

section

variable {α β : Type} {σ τ : Pairing} {post : Pairing → α → Prop} {post' : Pairing → β → Prop}

structure Grounds (post : Pairing → α → Prop) (m : Machine) (x : Except Stop α × Machine) : Prop where
  grounded : x.2.Grounded
  known : m.known.Within x.2.known
  value : ∀ a, x.1 = .ok a → post x.2.known a

def Grounding (σ : Pairing) (post : Pairing → α → Prop) (e : Evaluation α) : Prop :=
  ∀ m, m.Grounded → σ.Within m.known → Grounds post m (e m)

theorem Pairing.scope_imp {e e' : Scope} (hτ : σ.Within τ) (h : σ.scope e e') : τ.scope e e' :=
  h.imp fun _ _ => hτ.address

theorem Pairing.Within.refl (σ : Pairing) : σ.Within σ :=
  ⟨fun h => h, fun h => h, fun h => h⟩

theorem Pairing.Within.trans {υ : Pairing} (h : σ.Within τ) (h' : τ.Within υ) : σ.Within υ :=
  ⟨h'.position ∘ h.position, h'.address ∘ h.address, h'.id ∘ h.id⟩

namespace Grounding

variable {e : Evaluation α}

theorem pure {a : α} (h : ∀ τ, σ.Within τ → post τ a) : Grounding σ post (pure a) :=
  fun m hm hσ => ⟨hm, .refl _, fun _ ha => Except.ok.inj ha ▸ h m.known hσ⟩

theorem value {v : Value} (h : σ.Knows v) : Grounding σ Pairing.Knows (Pure.pure v) :=
  pure fun _ => h.imp

theorem throw (s : Stop) : Grounding σ post (throw s) :=
  fun _ hm _ => ⟨hm, .refl _, nofun⟩

theorem of_store (hlater : ∀ m : Machine, m.Later (e m).2) (hstore : ∀ m, (e m).2.store = m.store)
    (h : ∀ m, m.Grounded → σ.Within m.known → ∀ a, (e m).1 = .ok a → post (e m).2.known a) :
    Grounding σ post e :=
  fun m hm hσ => ⟨hm.later (hlater m) (hstore m), (hlater m).known, h m hm hσ⟩

theorem ofExcept {x : Except Stop α} (h : ∀ τ, σ.Within τ → ∀ a, x = .ok a → post τ a) :
    Grounding σ post (Evaluation.ofExcept x) :=
  fun m hm hσ => ⟨hm, .refl _, h m.known hσ⟩

theorem bind {f : α → Evaluation β} (he : Grounding σ post e)
    (hf : ∀ τ a, σ.Within τ → post τ a → Grounding τ post' (f a)) : Grounding σ post' (e >>= f) := by
  intro m hm hσ
  obtain ⟨hgrounded, hknown, hvalue⟩ := he m hm hσ
  rw [bind_apply]
  rcases hx : e m with ⟨s | a, n⟩
  all_goals rw [hx] at hgrounded hknown hvalue
  · exact ⟨hgrounded, hknown, nofun⟩
  · -- What comes behind starts from all that is known by now.
    obtain ⟨hgrounded', hknown', hvalue'⟩ :=
      hf n.known a (hσ.trans hknown) (hvalue a rfl) n hgrounded (.refl _)
    exact ⟨hgrounded', hknown.trans hknown', hvalue'⟩

theorem mapStop (h : Grounding σ post e) (f : Stop → Stop) : Grounding σ post (mapStop f e) := by
  intro m hm hσ
  obtain ⟨hgrounded, hknown, hvalue⟩ := h m hm hσ
  refine ⟨hgrounded, hknown, fun a ha => hvalue a ?_⟩
  change (e m).1.mapError f = .ok a at ha
  rcases hx : (e m).1 with s | b
  all_goals rw [hx] at ha
  · cases ha
  · exact ha

theorem asCall (h : Grounding σ post e) (limit : Int) : Grounding σ post (asCall limit e) := by
  intro m hm hσ
  by_cases hle : limit ≤ m.depth
  · rw [asCall_of_le hle]
    exact ⟨hm, .refl _, nofun⟩
  · rw [asCall_of_lt (Int.not_le.mp hle)]
    obtain ⟨hgrounded, hknown, hvalue⟩ := h { m with depth := m.depth + 1 } hm hσ
    exact ⟨hgrounded, hknown, hvalue⟩

theorem repeatUntil {turn : Evaluation (Option Value)}
    (h : ∀ {τ}, σ.Within τ → Grounding τ (fun υ r => ∀ v ∈ r, υ.Knows v) turn) (n : Nat) :
    Grounding σ Pairing.Knows (repeatUntil turn n) := by
  induction n generalizing σ with
  | zero => exact throw .endless
  | succ n ih =>
    have hturn := LawfulCarrier.repeatUntil_succ (M := Evaluation) turn n
    change Evaluation.repeatUntil turn (n + 1) = _ at hturn
    rw [hturn]
    apply (h (.refl σ)).bind
    intro τ r hτ hr
    cases r with
    | none => exact ih fun hυ => h (hτ.trans hυ)
    | some v => exact value (hr v rfl)

end Grounding

end

section

variable {σ : Pairing} {scope : Scope} {v : Value}

theorem grounding_lookup (scope : Scope) (x : String) :
    Grounding σ Pairing.Knows (lookup scope x) := by
  intro m hm hσ
  unfold lookup
  split
  · rename_i v hv
    exact ⟨hm, .refl _, fun _ ha => Except.ok.inj ha ▸ hm.get? hv⟩
  · exact ⟨hm, .refl _, nofun⟩

theorem grounding_update {e : Evaluation Unit} (hv : σ.Knows v) {x : String}
    (hlater : ∀ m : Machine, m.Later (e m).2)
    (h : ∀ m, (e m).2 = m ∨ ∃ a, (e m).2 = { m with store := m.store.update a x v }) :
    Grounding σ (fun _ _ => True) e := by
  intro m hm hσ
  refine ⟨?_, (hlater m).known, fun _ _ => trivial⟩
  rcases h m with heq | ⟨a, heq⟩
  all_goals rw [heq]
  · exact hm
  · exact hm.update a x (hv.imp hσ)

theorem grounding_assign (scope : Scope) (x : String) (hv : σ.Knows v) :
    Grounding σ (fun _ _ => True) (assign scope x v) := by
  refine grounding_update hv (x := x) (fun m => (plain_assign scope x v m).later) fun m => ?_
  unfold assign
  split
  · rename_i s hs
    obtain ⟨a, -, rfl⟩ := Option.map_eq_some_iff.mp hs
    exact .inr ⟨a, rfl⟩
  · exact .inl rfl

theorem grounding_define (scope : Scope) (x : String) (hv : σ.Knows v) :
    Grounding σ (fun _ _ => True) (define scope x v) := by
  refine grounding_update hv (x := x) (fun m => (plain_define scope x v m).later) fun m => ?_
  cases scope with
  | nil => exact .inl rfl
  | cons a scope => exact .inr ⟨a, rfl⟩

theorem grounding_openChild (he : σ.scope scope scope) :
    Grounding σ (fun τ inner => τ.scope inner inner) (openChild scope) := by
  intro m hm hσ
  have hknown := (plain_openChild scope m).later.known
  refine ⟨hm.push .nil, hknown, ?_⟩
  rintro _ ⟨⟩
  refine .cons ⟨rfl, ?_⟩ (Pairing.scope_imp (hσ.trans hknown) he)
  exact Nat.lt_of_lt_of_eq (Nat.lt_succ_self _) (Store.fresh_push _ _).symm

theorem grounding_makeFunction {d : Definition} (hd : d.Like σ d) (he : σ.scope scope scope) :
    Grounding σ Pairing.Knows (makeFunction d scope) := by
  refine .of_store (fun m => (plain_makeFunction d scope m).later) (fun _ => rfl) fun m _ hσ => ?_
  have hknown := (plain_makeFunction d scope m).later.known
  rintro _ ⟨⟩
  exact .function ⟨rfl, Nat.lt_succ_self _⟩ (hd.imp (hσ.trans hknown))
    (Pairing.scope_imp (hσ.trans hknown) he)

theorem grounding_identify (hv : σ.Knows v) : Grounding σ Pairing.Knows (identify v) := by
  unfold identify
  split
  · split
    · refine .of_store (fun m => .of_made m) (fun _ => rfl) fun m _ _ => ?_
      rintro _ ⟨⟩
      exact .undefined ⟨rfl, Nat.lt_succ_self _⟩
    · exact .value hv
  · exact .value hv

theorem grounding_bindAll (scope : Scope) {bs : List (String × Value)} (h : ∀ b ∈ bs, σ.Knows b.2) :
    Grounding σ (fun _ _ => True) (bindAll scope bs) := by
  induction bs generalizing σ with
  | nil => exact .pure fun _ _ => trivial
  | cons b bs ih =>
    obtain ⟨hb, hbs⟩ := List.forall_mem_cons.mp h
    apply (grounding_define scope b.1 hb).bind
    exact fun τ _ hτ _ => ih fun c hc => (hbs c hc).imp hτ

theorem grounding_callBuiltin (b : Builtin) (vs : List Value) :
    Grounding σ Pairing.Knows (callBuiltin b vs) := by
  refine .of_store (fun m => (plain_callBuiltin b vs m).later) (store_callBuiltin b vs) ?_
  intro m _ _ v hv
  have hliteral : v.IsLiteral := by
    cases b <;> cases vs <;> cases hv <;> trivial
  exact .of_isLiteral hliteral

theorem grounding_countStep (maxSteps : Option Int) (pos : Option Position) :
    Grounding σ (fun _ _ => True) (countStep maxSteps pos) := by
  refine .of_store (later_countStep maxSteps pos) (fun m => ?_) fun _ _ _ _ _ => trivial
  rw [countStep_snd]

theorem grounding_operation {x : Except Stop Value} (h : Ends σ (Value.Like σ) x x) :
    Grounding σ Pairing.Knows (do identify (← Evaluation.ofExcept x)) := by
  have hofExcept : Grounding σ Pairing.Knows (Evaluation.ofExcept x) := by
    refine .ofExcept fun τ hτ v hv => ?_
    rw [hv] at h
    cases h with
    | value hv => exact hv.imp hτ
  exact hofExcept.bind fun _ _ _ => grounding_identify

end

def GroundingNodes (recur : Node → Scope → Evaluation Value) : Prop :=
  ∀ {σ n e}, n.Like σ n → σ.scope e e → Grounding σ Pairing.Knows (recur n e)

namespace GroundingNodes

variable {σ : Pairing} {recur : Node → Scope → Evaluation Value} (h : GroundingNodes recur)
  {e : Scope} (he : σ.scope e e)

include h he

theorem all {ns : List Node} (hns : ∀ n ∈ ns, n.Like σ n) :
    Grounding σ (fun τ vs => ∀ v ∈ vs, τ.Knows v) (all recur e ns) := by
  induction ns generalizing σ with
  | nil => exact .pure fun _ _ => nofun
  | cons n ns ih =>
    obtain ⟨hn, hns⟩ := List.forall_mem_cons.mp hns
    apply (h hn he).bind
    intro τ v hτ hv
    apply (ih (Pairing.scope_imp hτ he) fun n hn => (hns n hn).imp hτ).bind
    intro υ vs hυ hvs
    exact .pure fun φ hφ => List.forall_mem_cons.mpr
      ⟨hv.imp (hυ.trans hφ), fun w hw => (hvs w hw).imp hφ⟩

theorem sequence {ns : List Node} (hns : ∀ n ∈ ns, n.Like σ n) {last : Value} (hlast : σ.Knows last) :
    Grounding σ Pairing.Knows (sequence recur e last ns) := by
  induction ns generalizing σ last with
  | nil => exact .value hlast
  | cons n ns ih =>
    obtain ⟨hn, hns⟩ := List.forall_mem_cons.mp hns
    apply (h hn he).bind
    intro τ v hτ hv
    cases v
    case returned v => exact .value hv
    all_goals exact ih (Pairing.scope_imp hτ he) (fun n hn => (hns n hn).imp hτ) hv

theorem binary (op : String) {a b : Node} (ha : a.Like σ a) (hb : b.Like σ b) :
    Grounding σ Pairing.Knows (binary recur op a b e) := by
  have hright {τ : Pairing} (hτ : σ.Within τ) := h (hb.imp hτ) (Pairing.scope_imp hτ he)
  unfold Evaluation.binary
  split
  all_goals
    apply (h ha he).bind
    intro τ v hτ hv
  · split
    · exact (hright hτ).bind fun _ _ _ _ => .value (.bool _)
    · exact .value (.bool _)
  · split
    · exact .value (.bool _)
    · exact (hright hτ).bind fun _ _ _ _ => .value (.bool _)
  · apply (hright hτ).bind
    intro υ w hυ hw
    exact grounding_operation (Operator.ends_binary op (hv.imp hυ) hw)

theorem condition {n : Node} (hn : n.Like σ n) :
    Grounding σ (fun _ _ => True) (condition recur n e) := by
  apply (h hn he).bind
  intro τ v _ _
  cases v
  case bool b => exact .pure fun _ _ => trivial
  all_goals exact .throw _

theorem turn {c n : Node} (hc : c.Like σ c) (hn : n.Like σ n) :
    Grounding σ (fun τ r => ∀ v ∈ r, τ.Knows v) (turn recur c n e) := by
  apply (h.condition he hc).bind
  intro τ b hτ _
  split
  · apply (grounding_openChild (Pairing.scope_imp hτ he)).bind
    intro υ inner hυ hinner
    apply (h (hn.imp (hτ.trans hυ)) hinner).bind
    intro φ v hφ hv
    cases v
    case returned v =>
      refine .pure fun ψ hψ => ?_
      rintro _ ⟨⟩
      exact hv.imp hψ
    all_goals exact .pure fun _ _ => nofun
  · refine .pure fun ψ hψ => ?_
    rintro _ ⟨⟩
    exact .nil

theorem callFunction (maxDepth : Int) {d : Definition} (hd : d.Like σ d) {vs : List Value}
    (hvs : ∀ v ∈ vs, σ.Knows v) :
    Grounding σ Pairing.Knows (callFunction recur maxDepth d e vs) := by
  unfold Evaluation.callFunction
  apply Grounding.asCall
  apply (grounding_openChild he).bind
  intro τ inner hτ hinner
  apply (grounding_bindAll inner fun b hb => (hvs b.2 (List.of_mem_zip hb).2).imp hτ).bind
  intro υ _ hυ _
  have hbody : ∀ n ∈ d.body, n.Like υ n := fun n hn =>
    (List.forall₂_same.mp hd.body n hn).imp (hτ.trans hυ)
  apply (h.sequence (Pairing.scope_imp hυ hinner) hbody .nil).bind
  intro φ v _ hv
  cases v
  case returned v =>
    cases hv with
    | returned hv => exact .value hv
  all_goals exact .value .nil

theorem call (maxDepth : Int) {n : Node} (hn : n.Like σ n) {ns : List Node}
    (hns : ∀ n ∈ ns, n.Like σ n) : Grounding σ Pairing.Knows (call recur maxDepth n ns e) := by
  have harity {τ : Pairing} (arity : Nat) (vs : List Value) {c : Evaluation Value}
      (hc : Grounding τ Pairing.Knows c) : Grounding τ Pairing.Knows (withArity arity vs c) := by
    unfold withArity
    split
    · exact hc
    · exact .throw _
  apply (h hn he).bind
  intro τ v hτ hv
  have hall := h.all (Pairing.scope_imp hτ he) fun n hn => (hns n hn).imp hτ
  cases hv with
  | function hi hd hclosure =>
    apply hall.bind
    intro υ vs hυ hvs
    exact harity _ vs (h.callFunction (Pairing.scope_imp hυ hclosure) maxDepth (hd.imp hυ) hvs)
  | builtin b => exact hall.bind fun _ vs _ _ => harity _ vs (grounding_callBuiltin b vs)
  | _ => exact .throw _

theorem perform (limits : Limits) {n : Node} (hn : n.Like σ n) :
    Grounding σ Pairing.Knows (perform recur limits n e) := by
  cases hn with
  | literal hp hv => exact .value hv
  | name x hp => exact grounding_lookup e x
  | binary op hp ha hb => exact h.binary he op ha hb
  | unary op hp ha =>
    apply (h ha he).bind
    intro τ v _ hv
    exact grounding_operation (Operator.ends_unary op hv)
  | assign x hp ha =>
    apply (h ha he).bind
    intro τ v _ hv
    exact (grounding_assign e x hv).bind fun υ _ hυ _ => .value (hv.imp hυ)
  | call hp ha hns => exact h.call he limits.maxDepth ha (List.forall₂_same.mp hns)
  | function hd => exact grounding_makeFunction hd he
  | program hp hns => exact h.sequence he (List.forall₂_same.mp hns) .nil
  | expression hp ha => exact h ha he
  | declareVar x hp ha =>
    apply (h ha he).bind
    intro τ v _ hv
    exact (grounding_define e x hv).bind fun _ _ _ _ => .value .nil
  | @declareFunction p _ d _ hp hd =>
    have hdeclare : Grounding σ (fun _ _ => True) (do
        defineNamed e d.name (← makeFunction d e)) := by
      apply (grounding_makeFunction hd he).bind
      intro τ v _ hv
      cases d.name with
      | none => exact .pure fun _ _ => trivial
      | some x => exact grounding_define e x hv
    exact hdeclare.bind fun _ _ _ _ => .value .nil
  | block hp hns =>
    apply (grounding_openChild he).bind
    intro τ inner hτ hinner
    exact h.sequence hinner (fun n hn => (List.forall₂_same.mp hns n hn).imp hτ) .nil
  | oneBranch hp hc hn =>
    apply (h.condition he hc).bind
    intro τ b hτ _
    split
    · exact h (hn.imp hτ) (Pairing.scope_imp hτ he)
    · exact .value .nil
  | twoBranches hp hc hn hk =>
    apply (h.condition he hc).bind
    intro τ b hτ _
    split
    · exact h (hn.imp hτ) (Pairing.scope_imp hτ he)
    · exact h (hk.imp hτ) (Pairing.scope_imp hτ he)
  | loop hp hc hn =>
    -- Later turns start where more is known, so the parts are taken along.
    refine .repeatUntil (fun hτ => ?_) limits.patience
    exact h.turn (Pairing.scope_imp hτ he) (hc.imp hτ) (hn.imp hτ)
  | ret hp => exact .value (.returned .nil)
  | retValue hp ha => exact (h ha he).bind fun _ _ _ hv => .value (.returned hv)
  | hole sort hp => exact .throw _

theorem visit (limits : Limits) {n : Node} (hn : n.Like σ n) :
    Grounding σ Pairing.Knows (visit recur limits n e) := by
  apply (grounding_countStep limits.maxSteps n.pos).bind
  intro τ _ hτ _
  exact (h.perform (Pairing.scope_imp hτ he) limits (hn.imp hτ)).mapStop _

end GroundingNodes

theorem grounding_evaluateWithin (limits : Limits) (room : Nat) :
    GroundingNodes (Node.evaluateWithin limits room) := by
  induction room with
  | zero => exact fun _ _ => .throw .exhausted
  | succ room ih => exact fun hn he => ih.visit he limits hn

namespace Program

theorem grounding_runFrom (limits : Limits) {σ : Pairing} {e : Scope} (he : σ.scope e e) {last : Value}
    (hlast : σ.Knows last) {ns : List Node} (hns : ∀ n ∈ ns, n.Like σ n) :
    Grounding σ Pairing.Knows (runFrom limits e last ns) := by
  induction ns generalizing σ last with
  | nil => exact .value hlast
  | cons n ns ih =>
    obtain ⟨hn, hns⟩ := List.forall_mem_cons.mp hns
    have hnode := grounding_evaluateWithin limits limits.evaluationRoom hn he
    apply (hnode.mapStop (Stop.settle n.pos)).bind
    intro τ v hτ hv
    cases v
    case returned v => exact .throw _
    all_goals exact ih (Pairing.scope_imp hτ he) hv fun n hn => (hns n hn).imp hτ

theorem grounds_run (limits : Limits) {ns : List Node} {e : Scope} {m : Machine} (hm : m.Grounded)
    (he : m.known.scope e e) (hns : ∀ n ∈ ns, n.Like m.known n) :
    Grounds Pairing.Knows m (run limits ns e m) := by
  obtain ⟨hgrounded, hknown, hvalue⟩ :=
    grounding_runFrom limits he .nil hns { m with steps := 0, depth := 0 } hm (.refl _)
  exact ⟨hgrounded, hknown, hvalue⟩

end Program

end Scriptlet
