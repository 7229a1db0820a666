import Mathlib.Data.List.Forall2
import Scriptlet.Proofs.ScopeTree

namespace Scriptlet

/-- What stands for what in two runs. -/
structure Pairing where
  position : Option Position → Option Position → Prop
  address : Address → Address → Prop
  id : Nat → Nat → Prop
  steps : Nat → Nat → Prop
  output : String → String → Prop
  position_none : position none none
  position_isSome {p p' : Option Position} : position p p' → p.isSome = p'.isSome
  address_unique {a a' b b' : Address} : address a a' → address b b' → (a = b ↔ a' = b')
  id_unique {i i' j j' : Nat} : id i i' → id j j' → (i = j ↔ i' = j')
  steps_succ {n n' : Nat} : steps n n' → steps (n + 1) (n' + 1)
  output_append {s s' : String} (t : String) : output s s' → output (s ++ t) (s' ++ t)

abbrev Pairing.scope (ρ : Pairing) : Scope → Scope → Prop :=
  List.Forall₂ ρ.address

mutual

inductive Node.Like (ρ : Pairing) : Node → Node → Prop
  | literal {p p' : Option Position} {v v' : Value} (hp : ρ.position p p') (hv : v.Like ρ v') :
      Node.Like ρ (.literal p v) (.literal p' v')
  | name {p p' : Option Position} (x : String) (hp : ρ.position p p') :
      Node.Like ρ (.name p x) (.name p' x)
  | binary {p p' : Option Position} {a a' b b' : Node} (op : String) (hp : ρ.position p p')
      (ha : a.Like ρ a') (hb : b.Like ρ b') : Node.Like ρ (.binary p op a b) (.binary p' op a' b')
  | unary {p p' : Option Position} {a a' : Node} (op : String) (hp : ρ.position p p')
      (ha : a.Like ρ a') : Node.Like ρ (.unary p op a) (.unary p' op a')
  | assign {p p' : Option Position} {a a' : Node} (x : String) (hp : ρ.position p p')
      (ha : a.Like ρ a') : Node.Like ρ (.assign p x a) (.assign p' x a')
  | call {p p' : Option Position} {a a' : Node} {ns ns' : List Node} (hp : ρ.position p p')
      (ha : a.Like ρ a') (hns : List.Forall₂ (Node.Like ρ) ns ns') :
      Node.Like ρ (.call p a ns) (.call p' a' ns')
  | function {d d' : Definition} (hd : d.Like ρ d') : Node.Like ρ (.function d) (.function d')
  | program {p p' : Option Position} {ns ns' : List Node} (hp : ρ.position p p')
      (hns : List.Forall₂ (Node.Like ρ) ns ns') : Node.Like ρ (.program p ns) (.program p' ns')
  | expression {p p' : Option Position} {a a' : Node} (hp : ρ.position p p') (ha : a.Like ρ a') :
      Node.Like ρ (.expression p a) (.expression p' a')
  | declareVar {p p' : Option Position} {a a' : Node} (x : String) (hp : ρ.position p p')
      (ha : a.Like ρ a') : Node.Like ρ (.declareVar p x a) (.declareVar p' x a')
  | declareFunction {p p' : Option Position} {d d' : Definition} (hp : ρ.position p p')
      (hd : d.Like ρ d') : Node.Like ρ (.declareFunction p d) (.declareFunction p' d')
  | block {p p' : Option Position} {ns ns' : List Node} (hp : ρ.position p p')
      (hns : List.Forall₂ (Node.Like ρ) ns ns') : Node.Like ρ (.block p ns) (.block p' ns')
  | oneBranch {p p' : Option Position} {c c' n n' : Node} (hp : ρ.position p p')
      (hc : c.Like ρ c') (hn : n.Like ρ n') :
      Node.Like ρ (.conditional p c n none) (.conditional p' c' n' none)
  | twoBranches {p p' : Option Position} {c c' n n' k k' : Node} (hp : ρ.position p p')
      (hc : c.Like ρ c') (hn : n.Like ρ n') (hk : k.Like ρ k') :
      Node.Like ρ (.conditional p c n (some k)) (.conditional p' c' n' (some k'))
  | loop {p p' : Option Position} {c c' n n' : Node} (hp : ρ.position p p') (hc : c.Like ρ c')
      (hn : n.Like ρ n') : Node.Like ρ (.loop p c n) (.loop p' c' n')
  | ret {p p' : Option Position} (hp : ρ.position p p') : Node.Like ρ (.ret p none) (.ret p' none)
  | retValue {p p' : Option Position} {a a' : Node} (hp : ρ.position p p') (ha : a.Like ρ a') :
      Node.Like ρ (.ret p (some a)) (.ret p' (some a'))
  | hole {p p' : Option Position} (sort : HoleSort) (hp : ρ.position p p') :
      Node.Like ρ (.hole p sort) (.hole p' sort)

inductive Definition.Like (ρ : Pairing) : Definition → Definition → Prop
  | mk {p p' q q' : Option Position} {ns ns' : List Node} (name : Option String)
      (params : List String) (hp : ρ.position p p') (hq : ρ.position q q')
      (hns : List.Forall₂ (Node.Like ρ) ns ns') :
      Definition.Like ρ ⟨p, name, params, q, ns⟩ ⟨p', name, params, q', ns'⟩

inductive Value.Like (ρ : Pairing) : Value → Value → Prop
  | nil : Value.Like ρ .nil .nil
  | bool (b : Bool) : Value.Like ρ (.bool b) (.bool b)
  | number (x : Float) : Value.Like ρ (.number x) (.number x)
  | undefined {i i' : Nat} (hi : ρ.id i i') : Value.Like ρ (.undefined i) (.undefined i')
  | string (s : String) : Value.Like ρ (.string s) (.string s)
  | function {i i' : Nat} {d d' : Definition} {e e' : Scope} (hi : ρ.id i i') (hd : d.Like ρ d')
      (he : ρ.scope e e') : Value.Like ρ (.function i d e) (.function i' d' e')
  | builtin (b : Builtin) : Value.Like ρ (.builtin b) (.builtin b)
  | returned {v v' : Value} (hv : v.Like ρ v') : Value.Like ρ (.returned v) (.returned v')

end

inductive Stop.Like (ρ : Pairing) : Stop → Stop → Prop
  | error {p p' : Option Position} (fault : RuntimeFault) (hp : ρ.position p p') :
      Stop.Like ρ (.error fault p) (.error fault p')
  | unknownOperator (op : String) : Stop.Like ρ (.unknownOperator op) (.unknownOperator op)
  | exhausted : Stop.Like ρ .exhausted .exhausted
  | endless : Stop.Like ρ .endless .endless

inductive Failure.Like (ρ : Pairing) : Failure → Failure → Prop
  | diagnosed {p p' : Option Position} (kind : ErrorKind) (detail : String)
      (hp : ρ.position p p') :
      Failure.Like ρ (.diagnosed (.placed kind detail p)) (.diagnosed (.placed kind detail p'))
  | sourceTooDeep {p p' : Option Position} (kind : ErrorKind) (detail : String)
      (hp : ρ.position p p') :
      Failure.Like ρ (.sourceTooDeep (.placed kind detail p)) (.sourceTooDeep (.placed kind detail p'))
  | callsTooDeep {p p' : Option Position} (kind : ErrorKind) (detail : String)
      (hp : ρ.position p p') :
      Failure.Like ρ (.callsTooDeep (.placed kind detail p)) (.callsTooDeep (.placed kind detail p'))
  | unknownOperator (op : String) : Failure.Like ρ (.unknownOperator op) (.unknownOperator op)
  | blankLimit (limit : Limit) : Failure.Like ρ (.blankLimit limit) (.blankLimit limit)
  | endless : Failure.Like ρ .endless .endless

def Frame.Like (ρ : Pairing) : Frame → Frame → Prop :=
  List.Forall₂ fun b b' => b.1 = b'.1 ∧ b.2.Like ρ b'.2

structure Store.Like (ρ : Pairing) (s s' : Store) : Prop where
  frames {a a' : Address} : ρ.address a a' → (s.frame a).Like ρ (s'.frame a')
  fresh (k : Nat) : ρ.address (s.fresh + k) (s'.fresh + k)

structure Machine.Like (ρ : Pairing) (m m' : Machine) : Prop where
  store : m.store.Like ρ m'.store
  made (k : Nat) : ρ.id (m.made + k) (m'.made + k)
  output : ρ.output m.output m'.output
  steps : ρ.steps m.steps m'.steps
  depth : m.depth = m'.depth
  clock : m.clock = m'.clock

structure Pairing.Within (ρ σ : Pairing) : Prop where
  position {p p' : Option Position} : ρ.position p p' → σ.position p p'
  address {a a' : Address} : ρ.address a a' → σ.address a a'
  id {i i' : Nat} : ρ.id i i' → σ.id i i'

structure Pairing.Reflexive (ρ : Pairing) : Prop where
  position (p : Option Position) : ρ.position p p
  address (a : Address) : ρ.address a a
  id (i : Nat) : ρ.id i i

structure Pairing.Exact (ρ : Pairing) : Prop where
  position {p p' : Option Position} : ρ.position p p' → p = p'
  address {a a' : Address} : ρ.address a a' → a = a'
  id {i i' : Nat} : ρ.id i i' → i = i'

def Pairing.identity : Pairing where
  position := Eq
  address := Eq
  id := Eq
  steps := Eq
  output := Eq
  position_none := rfl
  position_isSome h := h ▸ rfl
  address_unique h h' := by rw [h, h']
  id_unique h h' := by rw [h, h']
  steps_succ h := congrArg (· + 1) h
  output_append t h := congrArg (· ++ t) h

theorem Pairing.reflexive_identity : identity.Reflexive where
  position _ := rfl
  address _ := rfl
  id _ := rfl

theorem Pairing.exact_identity : identity.Exact where
  position h := h
  address h := h
  id h := h

theorem Pairing.Exact.scope {ρ : Pairing} (hρ : ρ.Exact) {e e' : Scope} (h : ρ.scope e e') :
    e = e' := by
  have heq : List.Forall₂ Eq e e' := h.imp fun _ _ => hρ.address
  rwa [List.forall₂_eq_eq_eq] at heq

section

variable {ρ σ : Pairing}

mutual

theorem Node.Like.imp {n n' : Node} (hσ : ρ.Within σ) (h : n.Like ρ n') : n.Like σ n' := by
  cases h with
  | literal hp hv => exact .literal (hσ.position hp) (hv.imp hσ)
  | name x hp => exact .name x (hσ.position hp)
  | binary op hp ha hb => exact .binary op (hσ.position hp) (ha.imp hσ) (hb.imp hσ)
  | unary op hp ha => exact .unary op (hσ.position hp) (ha.imp hσ)
  | assign x hp ha => exact .assign x (hσ.position hp) (ha.imp hσ)
  | call hp ha hns => exact .call (hσ.position hp) (ha.imp hσ) (Node.likes_imp hσ hns)
  | function hd => exact .function (hd.imp hσ)
  | program hp hns => exact .program (hσ.position hp) (Node.likes_imp hσ hns)
  | expression hp ha => exact .expression (hσ.position hp) (ha.imp hσ)
  | declareVar x hp ha => exact .declareVar x (hσ.position hp) (ha.imp hσ)
  | declareFunction hp hd => exact .declareFunction (hσ.position hp) (hd.imp hσ)
  | block hp hns => exact .block (hσ.position hp) (Node.likes_imp hσ hns)
  | oneBranch hp hc hn => exact .oneBranch (hσ.position hp) (hc.imp hσ) (hn.imp hσ)
  | twoBranches hp hc hn hk =>
    exact .twoBranches (hσ.position hp) (hc.imp hσ) (hn.imp hσ) (hk.imp hσ)
  | loop hp hc hn => exact .loop (hσ.position hp) (hc.imp hσ) (hn.imp hσ)
  | ret hp => exact .ret (hσ.position hp)
  | retValue hp ha => exact .retValue (hσ.position hp) (ha.imp hσ)
  | hole sort hp => exact .hole sort (hσ.position hp)
termination_by structural n

theorem Node.likes_imp {ns ns' : List Node} (hσ : ρ.Within σ)
    (h : List.Forall₂ (Node.Like ρ) ns ns') : List.Forall₂ (Node.Like σ) ns ns' := by
  cases h with
  | nil => exact .nil
  | cons hn hns => exact .cons (hn.imp hσ) (Node.likes_imp hσ hns)
termination_by structural ns

theorem Definition.Like.imp {d d' : Definition} (hσ : ρ.Within σ) (h : d.Like ρ d') :
    d.Like σ d' := by
  cases h with
  | mk name params hp hq hns =>
    exact .mk name params (hσ.position hp) (hσ.position hq) (Node.likes_imp hσ hns)
termination_by structural d

theorem Value.Like.imp {v v' : Value} (hσ : ρ.Within σ) (h : v.Like ρ v') : v.Like σ v' := by
  cases h with
  | nil => exact .nil
  | bool b => exact .bool b
  | number x => exact .number x
  | undefined hi => exact .undefined (hσ.id hi)
  | string s => exact .string s
  | function hi hd he => exact .function (hσ.id hi) (hd.imp hσ) (he.imp fun _ _ => hσ.address)
  | builtin b => exact .builtin b
  | returned hv => exact .returned (hv.imp hσ)
termination_by structural v

end

mutual

theorem Node.Like.refl (hρ : ρ.Reflexive) (n : Node) : n.Like ρ n := by
  cases n with
  | literal p v => exact .literal (hρ.position p) (.refl hρ v)
  | name p x => exact .name x (hρ.position p)
  | binary p op a b => exact .binary op (hρ.position p) (.refl hρ a) (.refl hρ b)
  | unary p op a => exact .unary op (hρ.position p) (.refl hρ a)
  | assign p x a => exact .assign x (hρ.position p) (.refl hρ a)
  | call p a ns => exact .call (hρ.position p) (.refl hρ a) (Node.likes_refl hρ ns)
  | function d => exact .function (.refl hρ d)
  | program p ns => exact .program (hρ.position p) (Node.likes_refl hρ ns)
  | expression p a => exact .expression (hρ.position p) (.refl hρ a)
  | declareVar p x a => exact .declareVar x (hρ.position p) (.refl hρ a)
  | declareFunction p d => exact .declareFunction (hρ.position p) (.refl hρ d)
  | block p ns => exact .block (hρ.position p) (Node.likes_refl hρ ns)
  | conditional p c n e =>
    match e with
    | none => exact .oneBranch (hρ.position p) (.refl hρ c) (.refl hρ n)
    | some k => exact .twoBranches (hρ.position p) (.refl hρ c) (.refl hρ n) (.refl hρ k)
  | loop p c n => exact .loop (hρ.position p) (.refl hρ c) (.refl hρ n)
  | ret p e =>
    match e with
    | none => exact .ret (hρ.position p)
    | some a => exact .retValue (hρ.position p) (.refl hρ a)
  | hole p sort => exact .hole sort (hρ.position p)
termination_by structural n

theorem Node.likes_refl (hρ : ρ.Reflexive) (ns : List Node) : List.Forall₂ (Node.Like ρ) ns ns := by
  cases ns with
  | nil => exact .nil
  | cons n ns => exact .cons (.refl hρ n) (Node.likes_refl hρ ns)
termination_by structural ns

theorem Definition.Like.refl (hρ : ρ.Reflexive) (d : Definition) : d.Like ρ d := by
  cases d with
  | mk p name params q ns =>
    exact .mk name params (hρ.position p) (hρ.position q) (Node.likes_refl hρ ns)
termination_by structural d

theorem Value.Like.refl (hρ : ρ.Reflexive) (v : Value) : v.Like ρ v := by
  cases v with
  | nil => exact .nil
  | bool b => exact .bool b
  | number x => exact .number x
  | undefined i => exact .undefined (hρ.id i)
  | string s => exact .string s
  | function i d e =>
    exact .function (hρ.id i) (.refl hρ d) (List.forall₂_same.mpr fun a _ => hρ.address a)
  | builtin b => exact .builtin b
  | returned v => exact .returned (.refl hρ v)
termination_by structural v

end

mutual

theorem Node.Like.eq {n n' : Node} (hρ : ρ.Exact) (h : n.Like ρ n') : n = n' := by
  cases h with
  | literal hp hv => rw [hρ.position hp, hv.eq hρ]
  | name x hp => rw [hρ.position hp]
  | binary op hp ha hb => rw [hρ.position hp, ha.eq hρ, hb.eq hρ]
  | unary op hp ha | assign x hp ha | expression hp ha | declareVar x hp ha | retValue hp ha =>
    rw [hρ.position hp, ha.eq hρ]
  | call hp ha hns => rw [hρ.position hp, ha.eq hρ, Node.likes_eq hρ hns]
  | function hd => rw [hd.eq hρ]
  | program hp hns | block hp hns => rw [hρ.position hp, Node.likes_eq hρ hns]
  | declareFunction hp hd => rw [hρ.position hp, hd.eq hρ]
  | oneBranch hp hc hn | loop hp hc hn => rw [hρ.position hp, hc.eq hρ, hn.eq hρ]
  | twoBranches hp hc hn hk => rw [hρ.position hp, hc.eq hρ, hn.eq hρ, hk.eq hρ]
  | ret hp | hole sort hp => rw [hρ.position hp]
termination_by structural n

theorem Node.likes_eq {ns ns' : List Node} (hρ : ρ.Exact)
    (h : List.Forall₂ (Node.Like ρ) ns ns') : ns = ns' := by
  cases h with
  | nil => rfl
  | cons hn hns => rw [hn.eq hρ, Node.likes_eq hρ hns]
termination_by structural ns

theorem Definition.Like.eq {d d' : Definition} (hρ : ρ.Exact) (h : d.Like ρ d') : d = d' := by
  cases h with
  | mk name params hp hq hns => rw [hρ.position hp, hρ.position hq, Node.likes_eq hρ hns]
termination_by structural d

theorem Value.Like.eq {v v' : Value} (hρ : ρ.Exact) (h : v.Like ρ v') : v = v' := by
  cases h with
  | nil | bool | number | string | builtin => rfl
  | undefined hi => rw [hρ.id hi]
  | function hi hd he => rw [hρ.id hi, hd.eq hρ, hρ.scope he]
  | returned hv => rw [hv.eq hρ]
termination_by structural v

end

theorem Stop.Like.eq {s s' : Stop} (hρ : ρ.Exact) (h : s.Like ρ s') : s = s' := by
  cases h with
  | error fault hp => rw [hρ.position hp]
  | _ => rfl

theorem Stop.Like.failure {s s' : Stop} (h : s.Like ρ s') : s.failure.Like ρ s'.failure := by
  cases h with
  | error fault hp =>
    cases fault with
    | recursion => exact .callsTooDeep _ _ hp
    | _ => exact .diagnosed _ _ hp
  | unknownOperator op => exact .unknownOperator op
  | exhausted => exact .callsTooDeep _ _ ρ.position_none
  | endless => exact .endless

theorem Frame.Like.eq {f f' : Frame} (hρ : ρ.Exact) (h : f.Like ρ f') : f = f' := by
  have heq : List.Forall₂ Eq f f' := h.imp fun _ _ hb => Prod.ext hb.1 (hb.2.eq hρ)
  rwa [List.forall₂_eq_eq_eq] at heq

theorem Stop.Like.imp {s s' : Stop} (hσ : ρ.Within σ) (h : s.Like ρ s') : s.Like σ s' := by
  cases h with
  | error fault hp => exact .error fault (hσ.position hp)
  | unknownOperator op => exact .unknownOperator op
  | exhausted => exact .exhausted
  | endless => exact .endless

theorem Store.Like.imp {s s' : Store} (hσ : ρ.Within σ)
    (haddress : ∀ {a a'}, σ.address a a' → ρ.address a a') (h : s.Like ρ s') : s.Like σ s' where
  frames ha := (h.frames (haddress ha)).imp fun _ _ hb => ⟨hb.1, hb.2.imp hσ⟩
  fresh k := hσ.address (h.fresh k)

theorem Machine.Like.imp {m m' : Machine} (hσ : ρ.Within σ)
    (haddress : ∀ {a a'}, σ.address a a' → ρ.address a a')
    (houtput : ∀ {o o'}, ρ.output o o' → σ.output o o')
    (hsteps : ∀ {n n'}, ρ.steps n n' → σ.steps n n') (h : m.Like ρ m') : m.Like σ m' where
  store := h.store.imp hσ haddress
  made k := hσ.id (h.made k)
  output := houtput h.output
  steps := hsteps h.steps
  depth := h.depth
  clock := h.clock

end

section

variable {ρ σ : Pairing} {v v' w w' : Value}

theorem Node.Like.pos {n n' : Node} (h : n.Like ρ n') : ρ.position n.pos n'.pos := by
  cases h with
  | function hd =>
    cases hd with
    | mk _ _ hp _ _ => exact hp
  | _ => assumption

theorem Definition.Like.name {d d' : Definition} (h : d.Like ρ d') : d.name = d'.name := by
  cases h
  rfl

theorem Definition.Like.shownName {d d' : Definition} (h : d.Like ρ d') :
    d.shownName = d'.shownName := by
  unfold Definition.shownName
  rw [h.name]

theorem Definition.Like.params {d d' : Definition} (h : d.Like ρ d') : d.params = d'.params := by
  cases h
  rfl

theorem Definition.Like.body {d d' : Definition} (h : d.Like ρ d') :
    List.Forall₂ (Node.Like ρ) d.body d'.body := by
  cases h with
  | mk _ _ _ _ hns => exact hns

theorem Value.Like.kind (h : v.Like ρ v') : v.kind = v'.kind := by
  cases h <;> rfl

theorem Value.Like.isTruthy (h : v.Like ρ v') : v.isTruthy = v'.isTruthy := by
  cases h <;> rfl

theorem Value.Like.number? (h : v.Like ρ v') : v.number? = v'.number? := by
  cases h <;> rfl

theorem Value.Like.inner {v v' : Value} (h : v.Like ρ v') : v.inner = v'.inner := by
  cases h with
  | function hi hd he =>
    unfold Value.inner
    rw [hd.shownName]
  | returned hv =>
    unfold Value.inner
    rw [hv.inner]
  | _ => rfl
termination_by structural v

theorem Value.Like.text (h : v.Like ρ v') : v.text = v'.text := by
  have hinner := h.inner
  cases h <;> first | rfl | exact hinner

theorem Value.Like.sameKind (hv : v.Like ρ v') (hw : w.Like ρ w') : v.sameKind w = v'.sameKind w' := by
  cases hv <;> cases hw <;> rfl

theorem Value.Like.alike {v v' w w' : Value} (hv : v.Like ρ v') (hw : w.Like ρ w') :
    v.alike w = v'.alike w' := by
  cases hv with
  | undefined hi =>
    cases hw with
    | undefined hj =>
      rw [Bool.eq_iff_iff, Value.alike, Value.alike, beq_iff_eq, beq_iff_eq]
      exact ρ.id_unique hi hj
    | _ => rfl
  | function hi =>
    cases hw with
    | function hj =>
      rw [Bool.eq_iff_iff, Value.alike, Value.alike, beq_iff_eq, beq_iff_eq]
      exact ρ.id_unique hi hj
    | _ => rfl
  | returned hv =>
    cases hw with
    | returned hw => exact hv.alike hw
    | _ => rfl
  | _ => cases hw <;> rfl
termination_by structural v

theorem Value.Like.equal (hv : v.Like ρ v') (hw : w.Like ρ w') : v.equal w = v'.equal w' := by
  have hparts : (v.sameKind w && v.alike w) = (v'.sameKind w' && v'.alike w') := by
    rw [hv.sameKind hw, hv.alike hw]
  cases hv <;> cases hw <;> first | rfl | exact hparts

theorem Value.Like.of_isLiteral (h : v.IsLiteral) : v.Like ρ v := by
  cases v with
  | nil => exact .nil
  | bool b => exact .bool b
  | number x => exact .number x
  | string s => exact .string s
  | _ => exact h.elim

theorem Value.Like.imp_of_isLiteral (h : v.Like ρ v') (hv : v.IsLiteral) : v.Like σ v' := by
  cases h with
  | nil => exact .nil
  | bool b => exact .bool b
  | number x => exact .number x
  | string s => exact .string s
  | _ => exact hv.elim

theorem Definition.Like.of_body {d : Definition} (hρ : ∀ p, ρ.position p p)
    (h : ∀ n ∈ d.body, n.Like ρ n) : d.Like ρ d := by
  cases d with
  | mk p name params q ns => exact .mk name params (hρ p) (hρ q) (List.forall₂_same.mpr h)

theorem Formed.like_imp {P : Token → Prop} {f : Bool} {r : Role} {n n' : Node} (h : Formed P f r n)
    (hlike : n.Like ρ n') (hσ : ∀ {p p'}, ρ.position p p' → σ.position p p') : n.Like σ n' := by
  have hlist {ns ns' : List Node} (hns : ∀ n ∈ ns, ∀ {n'}, n.Like ρ n' → n.Like σ n')
      (h : List.Forall₂ (Node.Like ρ) ns ns') : List.Forall₂ (Node.Like σ) ns ns' :=
    ((List.forall₂_and_left _ _).mpr ⟨hns, h⟩).imp fun _ _ h => h.1 h.2
  have hdefinition {d d' : Definition} (hns : ∀ n ∈ d.body, ∀ {n'}, n.Like ρ n' → n.Like σ n')
      (h : d.Like ρ d') : d.Like σ d' := by
    cases h with
    | mk name params hp hq hbody => exact .mk name params (hσ hp) (hσ hq) (hlist hns hbody)
  induction h generalizing n' with
  | literal _ hv =>
    cases hlike with
    | literal hp hlike => exact .literal (hσ hp) (hlike.imp_of_isLiteral hv)
  | name =>
    cases hlike with
    | name _ hp => exact .name _ (hσ hp)
  | binary _ _ _ _ iha ihb =>
    cases hlike with
    | binary _ hp ha hb => exact .binary _ (hσ hp) (iha ha) (ihb hb)
  | unary _ _ _ ih =>
    cases hlike with
    | unary _ hp ha => exact .unary _ (hσ hp) (ih ha)
  | assign _ _ ih =>
    cases hlike with
    | assign _ hp ha => exact .assign _ (hσ hp) (ih ha)
  | call _ _ _ ih ihs =>
    cases hlike with
    | call hp ha hns => exact .call (hσ hp) (ih ha) (hlist ihs hns)
  | function _ _ _ ihs =>
    cases hlike with
    | function hd => exact .function (hdefinition ihs hd)
  | expression _ _ ih =>
    cases hlike with
    | expression hp ha => exact .expression (hσ hp) (ih ha)
  | block _ _ _ ihs =>
    cases hlike with
    | block hp hns => exact .block (hσ hp) (hlist ihs hns)
  | oneBranch _ _ _ _ ihc ihn =>
    cases hlike with
    | oneBranch hp hc hn => exact .oneBranch (hσ hp) (ihc hc) (ihn hn)
  | twoBranches _ _ _ _ _ ihc ihn ihm =>
    cases hlike with
    | twoBranches hp hc hn hm => exact .twoBranches (hσ hp) (ihc hc) (ihn hn) (ihm hm)
  | loop _ _ _ _ ihc ihn =>
    cases hlike with
    | loop hp hc hn => exact .loop (hσ hp) (ihc hc) (ihn hn)
  | ret =>
    cases hlike with
    | ret hp => exact .ret (hσ hp)
  | retValue _ _ _ ih =>
    cases hlike with
    | retValue hp ha => exact .retValue (hσ hp) (ih ha)
  | declareVar _ _ _ ih =>
    cases hlike with
    | declareVar _ hp ha => exact .declareVar _ (hσ hp) (ih ha)
  | declareFunction _ _ _ _ ihs =>
    cases hlike with
    | declareFunction hp hd => exact .declareFunction (hσ hp) (hdefinition ihs hd)

theorem Formed.like {P : Token → Prop} {f : Bool} {r : Role} {n : Node} (h : Formed P f r n)
    (hρ : ∀ p, ρ.position p p) : n.Like ρ n :=
  h.like_imp (.refl Pairing.reflexive_identity n) fun hp => hp ▸ hρ _

end

end Scriptlet
