import Mathlib
import Scriptlet.Proofs.FailurePaths
import Scriptlet.Proofs.TreeAgreement

namespace Scriptlet

def BareStops {α : Type} (e : Evaluation α) : Prop :=
  ∀ m s, (e m).1 = .error s → s.Bare

namespace BareStops

open Evaluation

variable {α β : Type}

theorem of_ok {e : Evaluation α} (h : ∀ m, ∃ a, (e m).1 = .ok a) : BareStops e := by
  intro m s hs
  obtain ⟨a, ha⟩ := h m
  rw [ha] at hs
  cases hs

theorem bind {e : Evaluation α} {f : α → Evaluation β} (he : BareStops e)
    (hf : ∀ a, BareStops (f a)) : BareStops (e >>= f) := by
  intro m s hs
  rw [Evaluation.bind_apply] at hs
  have hem := he m
  generalize e m = x at hem hs
  obtain ⟨t | a, k⟩ := x
  · obtain rfl := Except.error.inj hs
    exact hem t rfl
  · exact hf a k s hs

theorem fail {fault : RuntimeFault} (hrecursion : fault ≠ .recursion)
    (hcondition : ∀ kind, fault ≠ .condition kind) : BareStops (fail fault : Evaluation α) := by
  rintro m s ⟨⟩ _ _ ⟨⟩
  exact ⟨hrecursion, hcondition, rfl⟩

theorem lookup (scope : Scope) (x : String) : BareStops (lookup scope x) := by
  intro m s hs
  unfold Evaluation.lookup at hs
  split at hs
  · cases hs
  · cases hs
    rintro _ _ ⟨⟩
    exact ⟨nofun, nofun, rfl⟩

theorem assign (scope : Scope) (x : String) (v : Value) : BareStops (assign scope x v) := by
  intro m s hs
  unfold Evaluation.assign at hs
  split at hs
  · cases hs
  · cases hs
    rintro _ _ ⟨⟩
    exact ⟨nofun, nofun, rfl⟩

theorem define (scope : Scope) (x : String) (v : Value) : BareStops (define scope x v) :=
  of_ok fun _ => ⟨(), rfl⟩

theorem identify (v : Value) : BareStops (identify v) := by
  unfold Evaluation.identify
  split
  · split
    · exact of_ok fun _ => ⟨_, rfl⟩
    · exact of_ok fun _ => ⟨_, rfl⟩
  · exact of_ok fun _ => ⟨_, rfl⟩

theorem bindAll (scope : Scope) (bs : List (String × Value)) : BareStops (bindAll scope bs) := by
  induction bs with
  | nil => exact of_ok fun _ => ⟨(), rfl⟩
  | cons b bs ih => exact (define scope b.1 b.2).bind fun _ => ih

theorem callBuiltin (b : Builtin) (vs : List Value) : BareStops (callBuiltin b vs) := by
  cases b <;> cases vs <;> exact of_ok fun _ => ⟨_, rfl⟩

theorem binary {op : String} {a b : Value} {s : Stop} (h : Operator.binary op a b = .error s) :
    s.Bare := by
  rcases Operator.binary_error h with rfl | rfl | ⟨rfl, -⟩
  · rintro _ _ ⟨⟩
    exact ⟨nofun, nofun, rfl⟩
  · rintro _ _ ⟨⟩
    exact ⟨nofun, nofun, rfl⟩
  · exact nofun

theorem unary {op : String} {a : Value} {s : Stop} (h : Operator.unary op a = .error s) :
    s.Bare := by
  obtain rfl := Operator.unary_error h
  rintro _ _ ⟨⟩
  exact ⟨nofun, nofun, rfl⟩

theorem operation {r : Except Stop Value} (h : ∀ s, r = .error s → s.Bare) :
    BareStops (do Evaluation.identify (← Evaluation.ofExcept r)) :=
  BareStops.bind (fun _ => h) identify

end BareStops

theorem Blames.bare {α : Type} {h : List Note} {n : Node} {e : Evaluation α} (he : BareStops e) :
    Blames h n (Recorded.act e) :=
  .act fun m s hs => (he m s hs).own n

namespace BlamesNodes

open Evaluation (all condition openChild)

variable {recur : Node → Scope → Recorded Value} (hrecur : BlamesNodes recur) {h : List Note}
  {n : Node} {scope : Scope}

include hrecur

theorem part {k : Node} (hk : k.Evaluates h n) : Blames h n (recur k scope) := by
  intro m
  obtain ⟨hvalue, hstop⟩ := hrecur k scope m
  refine ⟨fun v hv => (hvalue v hv).1, fun s hs => ?_⟩
  rcases hstop s hs with ⟨rfl, hunfailing⟩ | ⟨path, hunwound, hd⟩
  · exact ⟨[], hunfailing.unwound, .own nofun⟩
  · exact ⟨path, hunwound, .inner (hd.mono (List.subset_append_right _ _))
      (hk.mono (List.subset_append_left _ _))⟩

theorem all {ns : List Node} (hns : ∀ k ∈ ns, k.Evaluates h n) :
    Blames h n (all recur scope ns) := by
  induction ns generalizing h with
  | nil => exact .pure []
  | cons k ns ih =>
    obtain ⟨hk, hns⟩ := List.forall_mem_cons.mp hns
    refine (hrecur.part hk).bind fun m v _ => ?_
    refine (ih fun k hk => (hns k hk).mono (List.subset_append_left _ _)).bind fun _ vs _ => ?_
    exact .pure (v :: vs)

theorem sequence {ns : List Node} (hns : ∀ k ∈ ns, k.Evaluates h n) (last : Value) :
    Blames h n (Evaluation.sequence recur scope last ns) := by
  induction ns generalizing h last with
  | nil => exact .pure last
  | cons k ns ih =>
    obtain ⟨hk, hns⟩ := List.forall_mem_cons.mp hns
    refine (hrecur.part hk).bind fun m v _ => ?_
    have hrest (last : Value) : Blames (h ++ (recur k scope m).2) n
        (Evaluation.sequence recur scope last ns) :=
      ih (fun k hk => (hns k hk).mono (List.subset_append_left _ _)) last
    cases v
    case returned => exact .pure _
    all_goals exact hrest _

theorem binary {pos : Option Position} {op : String} {a b : Node} :
    Blames h (.binary pos op a b) (Evaluation.binary recur op a b scope) := by
  have ha (h : List Note) : Blames h (.binary pos op a b) (recur a scope) :=
    hrecur.part List.mem_cons_self
  have hb (h : List Note) : Blames h (.binary pos op a b) (recur b scope) :=
    hrecur.part (List.mem_cons_of_mem _ List.mem_cons_self)
  unfold Evaluation.binary
  split
  · refine (ha h).bind fun m v _ => ?_
    split
    · exact (hb _).bind fun _ _ _ => .pure _
    · exact .pure _
  · refine (ha h).bind fun m v _ => ?_
    split
    · exact .pure _
    · exact (hb _).bind fun _ _ _ => .pure _
  · refine (ha h).bind fun m v _ => (hb _).bind fun k w _ => ?_
    exact .bare (.operation fun s => BareStops.binary)

theorem condition {c : Node} (hc : c.Evaluates h n) (hcond : n.condition? = some c) :
    Blames h n (condition recur c scope) := by
  have hown (h : List Note) (kind : ValueKind) : Blames h n
      (Recorded.act (throw (.error (.condition kind) c.pos) : Evaluation Bool)) := by
    refine .act ?_
    rintro m s ⟨⟩ _ _ ⟨⟩
    refine ⟨nofun, fun _ _ => by rw [hcond]; rfl, ?_⟩
    simp only [RuntimeFault.place?, hcond, Option.bind_some]
  refine (hrecur.part hc).bind fun m v _ => ?_
  cases v
  case bool => exact .pure _
  all_goals exact hown _ _

theorem turn {pos : Option Position} {c b : Node} :
    Blames h (.loop pos c b) (Evaluation.turn recur c b scope) := by
  have hc : c.Evaluates h (.loop pos c b) := List.mem_cons_self
  refine (hrecur.condition hc rfl).bind fun m v _ => ?_
  split
  · refine (Blames.bare (.of_ok fun _ => ⟨_, rfl⟩)).bind fun k inner _ => ?_
    have hb (h : List Note) : Blames h (.loop pos c b) (recur b inner) :=
      hrecur.part (List.mem_cons_of_mem _ List.mem_cons_self)
    refine (hb _).bind fun l w _ => ?_
    cases w <;> exact .pure _
  · exact .pure _

theorem callFunction {d : Definition} (hbody : ∀ k ∈ d.body, k.Evaluates h n) (limit : Int)
    (args : List Value) : Blames h n (Evaluation.callFunction recur limit d scope args) := by
  refine Blames.asCall ?_ limit
  refine (Blames.bare (.of_ok fun _ => ⟨_, rfl⟩)).bind fun m inner _ => ?_
  refine (Blames.bare (.bindAll _ _)).bind fun k _ _ => ?_
  refine (hrecur.sequence (fun s hs => ?_) .nil).bind fun l v _ => ?_
  · rw [List.append_assoc]
    exact (hbody s hs).mono (List.subset_append_left _ _)
  · cases v <;> exact .pure _

theorem call {pos : Option Position} {callee : Node} {args : List Node} (limit : Int) :
    Blames h (.call pos callee args) (Evaluation.call recur limit callee args scope) := by
  have harity {h : List Note} {n : Node} {arity : Nat} {vs : List Value} {e : Recorded Value}
      (he : Blames h n e) : Blames h n (Evaluation.withArity arity vs e) := by
    unfold Evaluation.withArity
    split
    · exact he
    · exact .bare (.fail nofun nofun)
  have hargs (h : List Note) : Blames h (.call pos callee args) (Evaluation.all recur scope args) :=
    hrecur.all fun k hk => Node.evaluates_arg hk
  refine (hrecur.part Node.evaluates_callee).bind fun m v hv => ?_
  cases v
  case function i d closure =>
    -- The note of the callee tells whose body is run.
    obtain ⟨-, after, hafter⟩ := (hrecur callee scope m).value _ hv
    refine (hargs _).bind fun l vs _ => harity ?_
    refine hrecur.callFunction (fun k hk => Node.evaluates_body ?_ hk) limit vs
    exact ⟨i, closure, scope, after, List.mem_append_left _ (List.mem_append_right _ hafter)⟩
  case builtin b =>
    refine (hargs _).bind fun l vs _ => harity ?_
    exact .bare (.callBuiltin b vs)
  all_goals exact .bare (.fail nofun nofun)

theorem perform (limits : Limits) : Blames h n (Evaluation.perform recur limits n scope) := by
  cases n with
  | literal pos v => exact .pure v
  | name pos x => exact .bare (.lookup scope x)
  | binary pos op a b => exact hrecur.binary
  | unary pos op a =>
    refine (hrecur.part List.mem_cons_self).bind fun m v _ => ?_
    exact .bare (.operation fun s => BareStops.unary)
  | assign pos x a =>
    refine (hrecur.part List.mem_cons_self).bind fun m v _ => ?_
    exact (Blames.bare (.assign scope x v)).bind fun _ _ _ => .pure v
  | call pos callee args => exact hrecur.call limits.maxDepth
  | function d => exact .bare (.of_ok fun _ => ⟨_, rfl⟩)
  | program pos ns => exact hrecur.sequence (fun k hk => hk) .nil
  | expression pos a => exact hrecur.part List.mem_cons_self
  | declareVar pos x a =>
    refine (hrecur.part List.mem_cons_self).bind fun m v _ => ?_
    exact (Blames.bare (.define scope x v)).bind fun _ _ _ => .pure _
  | declareFunction pos d =>
    have hdefine (v : Value) : BareStops (Evaluation.defineNamed scope d.name v) := by
      cases d.name with
      | none => exact .of_ok fun _ => ⟨(), rfl⟩
      | some x => exact .define scope x v
    refine (Blames.bare (.bind (.of_ok fun _ => ⟨_, rfl⟩) hdefine)).bind fun _ _ _ => .pure _
  | block pos ns =>
    refine (Blames.bare (.of_ok fun _ => ⟨_, rfl⟩)).bind fun m inner _ => ?_
    exact hrecur.sequence (fun k hk => hk) .nil
  | conditional pos c a b =>
    refine (hrecur.condition List.mem_cons_self rfl).bind fun m r _ => ?_
    split
    · exact hrecur.part (List.mem_cons_of_mem _ List.mem_cons_self)
    · cases b with
      | none => exact .pure _
      | some b =>
        exact hrecur.part (List.mem_cons_of_mem _ (List.mem_cons_of_mem _ List.mem_cons_self))
  | loop pos c b => exact .repeatUntil (fun _ => hrecur.turn) _
  | ret pos a =>
    cases a with
    | none => exact .pure _
    | some a =>
      exact (hrecur.part List.mem_cons_self).bind fun _ _ _ => .pure _
  | hole pos sort => exact .bare (.fail nofun nofun)

end BlamesNodes

theorem Recorded.visit_eq (recur : Node → Scope → Recorded Value) (limits : Limits) (n : Node)
    (scope : Scope) :
    Evaluation.visit recur limits n scope =
      Recorded.mapStop (Stop.locate n.pos) (do
        Recorded.act (Evaluation.countStep limits.maxSteps none)
        Evaluation.perform recur limits n scope) := by
  funext m
  simp only [Evaluation.visit, Carrier.act, Carrier.mapStop, Recorded.mapStop, Recorded.bind_apply,
    Recorded.act_apply]
  cases limits.maxSteps with
  | none => rfl
  | some limit =>
    rw [Evaluation.countStep_some, Evaluation.countStep_some]
    by_cases h : limit < (m.steps + 1 : Nat)
    · rw [if_pos h, if_pos h]
      rfl
    · rw [if_neg h, if_neg h]

theorem BareStops.countStep (maxSteps : Option Int) :
    BareStops (Evaluation.countStep maxSteps none) := by
  intro m s hs
  cases maxSteps with
  | none => cases hs
  | some limit =>
    rw [Evaluation.countStep_some] at hs
    split at hs
    · cases hs
      rintro _ _ ⟨⟩
      exact ⟨nofun, nofun, rfl⟩
    · cases hs

theorem Blames.noting {n : Node} {e : Recorded Value} (he : Blames [] n e) (scope : Scope)
    (m : Machine) :
    BlamesNode n scope (Recorded.noting n scope (Recorded.mapStop (Stop.locate n.pos) e) m) := by
  have hem := he m
  simp only [Recorded.noting, Recorded.mapStop]
  generalize e m = x at hem ⊢
  obtain ⟨⟨s | v, k⟩, h⟩ := x
  · refine ⟨nofun, fun t ht => .inr ?_⟩
    obtain rfl := Except.error.inj ht
    obtain ⟨path, hunwound, hraised⟩ := hem.stop s rfl
    refine ⟨path ++ [(n, s.locate n.pos)], hunwound.concat rfl, ?_⟩
    cases hraised with
    | own hs => exact .own hs
    | inner hd hn =>
      exact .outer (hd.mono (List.subset_append_left _ _)) (hn.mono (List.subset_append_left _ _))
  · refine ⟨fun w hw => ?_, nofun⟩
    obtain rfl := Except.ok.inj hw
    refine ⟨(hem.value v rfl).append (List.forall_mem_singleton.mpr rfl), k, ?_⟩
    exact List.mem_append_right _ (List.mem_singleton_self _)

theorem BlamesNodes.visit {recur : Node → Scope → Recorded Value} (hrecur : BlamesNodes recur)
    (limits : Limits) :
    BlamesNodes fun n scope => Recorded.noting n scope (Evaluation.visit recur limits n scope) := by
  intro n scope m
  have hcount : Blames [] n (Recorded.act (Evaluation.countStep limits.maxSteps none)) :=
    .bare (.countStep limits.maxSteps)
  simp only [Recorded.visit_eq]
  exact (hcount.bind fun _ _ _ => hrecur.perform limits).noting scope m

theorem blamesNodes_within (limits : Limits) (room : Nat) :
    BlamesNodes (Node.recordWithin limits room) := by
  induction room with
  | zero =>
    intro n scope m
    refine ⟨nofun, fun s hs => .inl ⟨(Except.error.inj hs).symm, ?_⟩⟩
    exact List.forall_mem_singleton.mpr rfl
  | succ room ih => exact ih.visit limits

/-- An error in a node that is evaluated from outside, and whom it blames. The nodes that were under
evaluation when it came up are those that have failed, the innermost first. -/
structure Blame (h : List Note) (node : Node) (fault : RuntimeFault) (pos : Option Position) :
    Prop where
  unwound : Unwound h (failures h)
  chain : ((failures h).map Prod.fst).IsChain (Node.Evaluates h)
  outermost : ((failures h).map Prod.fst).getLast? = some node
  condition : ∀ kind, fault = .condition kind →
    (((failures h).map Prod.fst).head?.bind Node.condition?).isSome
  place : pos = fault.blamed ((failures h).map Prod.fst)
  known : ∀ front n s back, failures h = front ++ (n, s) :: back →
    s = .error fault (fault.blamed (front.map Prod.fst ++ [n]))

theorem Descent.blame {h : List Note} {path : List (Node × Stop)} {n : Node} {fault : RuntimeFault}
    {pos : Option Position} (hd : Descent h path n (.error fault pos)) (hunwound : Unwound h path) :
    fault ≠ .recursion ∧ Blame h n fault pos := by
  obtain ⟨hrecursion, hknown⟩ := hd.blames rfl
  refine ⟨hrecursion, ?_⟩
  obtain rfl := hunwound.failures
  refine ⟨hunwound, hd.isChain, ?_, ?_, hd.blamed_of rfl hknown, hknown⟩
  · rw [List.getLast?_map, hd.getLast?]
    rfl
  · rintro kind rfl
    rw [List.head?_map]
    exact hd.condition rfl

theorem RuntimeFault.blamed_append_of_eq_some {fault : RuntimeFault} {path : List Node} {p : Position}
    (h : fault.blamed path = some p) (outer : List Node) : fault.blamed (path ++ outer) = some p := by
  induction outer using List.reverseRecOn with
  | nil => rwa [List.append_nil]
  | append_singleton outer n ih =>
    have hne : path ++ outer ≠ [] := by
      intro hnil
      rw [hnil] at ih
      cases ih
    rw [← List.append_assoc, blamed_concat fault hne, ih]
    rfl

namespace Blame

variable {h : List Note} {node : Node} {fault : RuntimeFault} {pos : Option Position}

theorem kept (hb : Blame h node fault pos) : ∀ n p, (n, Stop.error fault (some p)) ∈ failures h →
    pos = some p := by
  intro n p hmem
  obtain ⟨front, back, hpath⟩ := List.mem_iff_append.mp hmem
  have hknown := (Stop.error.inj (hb.known front n _ back hpath)).2
  rw [hb.place, hpath, List.map_append, List.map_cons, ← List.singleton_append (l := back.map _),
    ← List.append_assoc]
  exact RuntimeFault.blamed_append_of_eq_some hknown.symm _

theorem unknown (hb : Blame h node fault none) : ∀ x ∈ failures h, x.1.pos = none := by
  intro x hx
  have hnone := (Option.or_eq_none_iff.mp hb.place.symm).2
  exact List.findSome?_eq_none_iff.mp hnone x.1 (List.mem_map_of_mem hx)

end Blame

theorem Stop.of_settle {s : Stop} {p pos : Option Position} {fault : RuntimeFault}
    (h : s.settle p = .error fault pos) :
    s = .exhausted ∧ fault = .recursion ∧ pos = p ∨ s = .error fault pos := by
  cases s with
  | exhausted =>
    cases h
    exact .inl ⟨rfl, rfl, rfl⟩
  | _ => exact .inr h

namespace Node

variable {limits : Limits} {node : Node} {scope : Scope} {m : Machine} {fault : RuntimeFault}
  {pos : Option Position}

theorem matches_recordWithin (limits : Limits) (room : Nat) (node : Node) (scope : Scope) :
    Recorded.Matches (node.recordWithin limits room scope) (node.evaluateWithin limits room scope) :=
  (Recorded.simulates_matches limits).recordWithin (fun _ _ _ _ h => h) room node scope

theorem matches_record (limits : Limits) (node : Node) (scope : Scope) :
    Recorded.Matches (node.record limits scope) (node.evaluate limits scope) :=
  (matches_recordWithin limits limits.evaluationRoom node scope).mapStop _

theorem evaluateWithin_blames {room : Nat}
    (hx : (node.evaluateWithin limits room scope m).1 = .error (.error fault pos)) :
    fault ≠ .recursion ∧ Blame (node.recordWithin limits room scope m).2 node fault pos := by
  rw [← matches_recordWithin] at hx
  rcases (blamesNodes_within limits room node scope m).stop _ hx with ⟨hs, -⟩ | ⟨path, hunwound, hd⟩
  · cases hs
  · exact hd.blame hunwound

/-- An error blames the innermost node under evaluation that has a place, and a condition that is no
boolean is blamed itself if it has one. Only where the host's stack runs out is the node blamed that
was to be evaluated from outside. -/
theorem evaluate_blames (hx : (node.evaluate limits scope m).1 = .error (.error fault pos)) :
    let h := (node.record limits scope m).2
    (node.record limits scope m).1 = node.evaluate limits scope m ∧
      (fault = .recursion ↔
        (node.evaluateWithin limits limits.evaluationRoom scope m).1 = .error .exhausted) ∧
      (fault = .recursion → pos = node.pos) ∧
      (fault ≠ .recursion → Blame h node fault pos ∧
        (∀ n p, (n, Stop.error fault (some p)) ∈ failures h → pos = some p) ∧
        (pos = none → ∀ x ∈ failures h, x.1.pos = none)) := by
  refine ⟨matches_record limits node scope m, ?_⟩
  change (node.evaluateWithin limits limits.evaluationRoom scope m).1.mapError _ = _ at hx
  cases hwithin : (node.evaluateWithin limits limits.evaluationRoom scope m).1 with
  | ok v =>
    rw [hwithin] at hx
    cases hx
  | error s =>
    rw [hwithin] at hx
    rcases Stop.of_settle (Except.error.inj hx) with ⟨rfl, rfl, rfl⟩ | rfl
    · exact ⟨iff_of_true rfl rfl, fun _ => rfl, fun hne => absurd rfl hne⟩
    · obtain ⟨hrecursion, hblame⟩ := evaluateWithin_blames hwithin
      refine ⟨iff_of_false hrecursion nofun, fun heq => absurd heq hrecursion, fun _ => ?_⟩
      refine ⟨hblame, hblame.kept, ?_⟩
      rintro rfl
      exact hblame.unknown

def callOfUnplaced : Node :=
  .call (some ⟨3, 5⟩) (.function ⟨none, none, [], none, [.expression none (.name none "x")]⟩) []

theorem evaluate_blames_callOfUnplaced :
    let fault : RuntimeFault := .undefinedName "x"
    let h := (callOfUnplaced.record {} [] (Machine.initial (0 : Float))).2
    (callOfUnplaced.evaluate {} [] (Machine.initial (0 : Float))).1 = .error (.error fault (some ⟨3, 5⟩)) ∧
      fault ≠ .recursion ∧ (failures h).length = 3 ∧ Blame h callOfUnplaced fault (some ⟨3, 5⟩) := by
  intro fault h
  have hx : (callOfUnplaced.evaluate {} [] (Machine.initial (0 : Float))).1 =
      .error (.error fault (some ⟨3, 5⟩)) := rfl
  have hfault : fault ≠ .recursion := nofun
  exact ⟨hx, hfault, rfl, ((evaluate_blames hx).2.2.2 hfault).1⟩

def selfCalls : Node :=
  .program (some ⟨1, 1⟩)
    [.declareFunction (some ⟨1, 1⟩) ⟨some ⟨1, 1⟩, some "f", [], some ⟨7, 7⟩,
      [.ret (some ⟨7, 7⟩) (some (.call (some ⟨7, 7⟩) (.name (some ⟨7, 7⟩) "f") []))]⟩,
    .expression (some ⟨1, 1⟩) (.call (some ⟨1, 1⟩) (.name (some ⟨1, 1⟩) "f") [])]

/-- Where the host's stack runs out in the function, the place of the outermost node is blamed and not
that of the innermost one. -/
theorem evaluate_selfCalls :
    let limits : Limits := { evaluationRoom := 8 }
    let start := (Machine.initial (0 : Float)).openRoot
    let h := (selfCalls.record limits start.1 start.2).2
    (selfCalls.evaluate limits start.1 start.2).1 = .error (.error .recursion (some ⟨1, 1⟩)) ∧
      (failures h).head?.bind (·.1.pos) = some ⟨7, 7⟩ ∧
      RuntimeFault.recursion.blamed ((failures h).map Prod.fst) = some ⟨7, 7⟩ :=
  ⟨by cbv, by cbv, by cbv⟩

end Node

end Scriptlet
