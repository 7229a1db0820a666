import Scriptlet.Proofs.FunctionLedger

namespace Scriptlet

open Evaluation (all condition openChild)

theorem Value.IsLiteral.from {v : Value} (h : v.IsLiteral) (w : Ledger) : v.From w := by
  cases v <;> trivial

namespace Operator

theorem binary_isLiteral {op : String} {a b v : Value} (h : binary op a b = .ok v) :
    v.IsLiteral := by
  rcases binary_ok h with ⟨_, rfl⟩ | ⟨_, rfl⟩ <;> trivial

theorem unary_isLiteral {op : String} {a v : Value} (h : unary op a = .ok v) : v.IsLiteral := by
  rcases unary_ok h with ⟨_, rfl⟩ | ⟨_, rfl⟩ <;> trivial

end Operator

theorem Store.get?_define {s : Store} {scope : Scope} {a : Address} (ha : a ∈ scope.head?)
    (hlt : a < s.fresh) (x : String) (v : Value) : (s.define scope x v).get? scope x = some v := by
  obtain ⟨outer, rfl⟩ := List.head?_eq_some_iff.mp ha
  have hframe : ((s.update a x v).frame a).get? x = some v := by
    rw [frame_update s a a x v hlt, if_pos rfl, Frame.get?_set, if_pos rfl]
  have hcontains : ((s.update a x v).frame a).contains x = true := by
    rw [Frame.contains, hframe]
    rfl
  have hresolve : (s.update a x v).resolve (a :: outer) x = some a :=
    List.find?_cons_of_pos hcontains
  change (s.update a x v).get? (a :: outer) x = some v
  rw [get?, hresolve]
  exact hframe

section

variable {w : Ledger} {scope : Scope}

theorem keepsBooks_fail {α : Type} {post : Ledger → α → Prop} (s : Stop) :
    KeepsBooks w post (Recorded.act (throw s)) :=
  .of_store (fun _ => rfl) (fun _ => Nat.le_refl _) fun _ _ _ => nofun

theorem keepsBooks_operation {r : Except Stop Value} (hr : ∀ v, r = .ok v → v.IsLiteral) :
    KeepsBooks w Value.From
      (Recorded.act (do Evaluation.identify (← Evaluation.ofExcept r))) := by
  cases r with
  | error s => exact keepsBooks_fail s
  | ok v =>
    refine .of_store (Evaluation.store_identify v)
      (fun m => (Evaluation.plain_identify v m).later.made) fun m u _ hu => ?_
    have hv := (hr v rfl).from w
    change (Evaluation.identify v m).1 = .ok u at hu
    unfold Evaluation.identify at hu
    split at hu
    · split at hu
      · obtain rfl := Except.ok.inj hu
        trivial
      · obtain rfl := Except.ok.inj hu
        exact hv
    · obtain rfl := Except.ok.inj hu
      exact hv

theorem keepsBooks_lookup (x : String) :
    KeepsBooks w Value.From (Recorded.act (Evaluation.lookup scope x)) := by
  have hsame (m : Machine) : (Evaluation.lookup scope x m).2 = m := by
    unfold Evaluation.lookup
    split <;> rfl
  refine .of_store (fun m => congrArg Machine.store (hsame m))
    (fun m => (Evaluation.plain_lookup scope x m).later.made) fun m v hm hv => ?_
  unfold Evaluation.lookup at hv
  split at hv
  · rename_i u hu
    obtain rfl := Except.ok.inj hv
    exact hm.get? hu
  · cases hv

theorem keepsBooks_assign (x : String) {v : Value} (hv : v.From w) :
    KeepsBooks w (fun _ _ => True) (Recorded.act (Evaluation.assign scope x v)) := by
  refine .act fun m hm => ⟨w.frames, Nat.le_refl _, ?_, fun _ _ => trivial⟩
  unfold Evaluation.assign
  split
  · rename_i hassign
    obtain ⟨a, -, rfl⟩ := Option.map_eq_some_iff.mp hassign
    exact hm.update a x hv
  · exact hm

theorem keepsBooks_define (x : String) {v : Value} (hv : v.From w) :
    KeepsBooks w (fun _ _ => True) (Recorded.act (Evaluation.define scope x v)) :=
  .act fun _ hm => ⟨w.frames, Nat.le_refl _, hm.define scope x hv, fun _ _ => trivial⟩

theorem keepsBooks_bindAll {bs : List (String × Value)} (hbs : ∀ b ∈ bs, b.2.From w) :
    KeepsBooks w (fun _ _ => True) (Recorded.act (Evaluation.bindAll scope bs)) := by
  have hbooked (m : Machine) (hm : m.Booked w) : (Evaluation.bindAll scope bs m).2.Booked w := by
    induction bs generalizing m with
    | nil => exact hm
    | cons b bs ih =>
      obtain ⟨hb, hbs⟩ := List.forall_mem_cons.mp hbs
      exact ih hbs _ (hm.define scope b.1 hb)
  exact .act fun m hm => ⟨w.frames, Nat.le_refl _, hbooked m hm, fun _ _ => trivial⟩

theorem keepsBooks_callBuiltin (b : Builtin) (vs : List Value) :
    KeepsBooks w Value.From (Recorded.act (Evaluation.callBuiltin b vs)) := by
  refine .of_store (Evaluation.store_callBuiltin b vs)
    (fun m => (Evaluation.plain_callBuiltin b vs m).later.made) fun m v _ hv => ?_
  cases b <;> cases vs <;> cases hv <;> trivial

theorem keepsBooks_countStep (maxSteps : Option Int) (pos : Option Position) :
    KeepsBooks w (fun _ _ => True) (Recorded.act (Evaluation.countStep maxSteps pos)) := by
  refine .of_store (fun m => ?_) (fun m => (Evaluation.later_countStep maxSteps pos m).made)
    fun _ _ _ _ => trivial
  rw [Evaluation.countStep_snd]

theorem keepsBooks_openChild :
    KeepsBooks w (fun ws inner => ws.Sees inner) (Recorded.act (openChild scope)) := by
  refine .act fun m hm => ⟨w.frames + 1, Nat.le_succ _, hm.push (List.forall_mem_nil _), ?_⟩
  rintro _ ⟨⟩
  exact ⟨m.store.fresh, rfl, Nat.lt_succ_of_le (Nat.le_of_eq hm.frames.symm)⟩

end

def KeepsBooksNodes (recur : Node → Scope → Recorded Value) : Prop :=
  ∀ w n scope, n.Proper → w.Sees scope → KeepsBooks w Value.From (recur n scope)

namespace KeepsBooksNodes

variable {recur : Node → Scope → Recorded Value} (hrecur : KeepsBooksNodes recur) {w : Ledger}
  {scope : Scope} (he : w.Sees scope)

include hrecur he

theorem all {ns : List Node} (hns : ∀ n ∈ ns, n.Proper) :
    KeepsBooks w (fun ws vs => ∀ v ∈ vs, v.From ws) (all recur scope ns) := by
  induction ns generalizing w with
  | nil => exact .pure (List.forall_mem_nil _)
  | cons n ns ih =>
    obtain ⟨hn, hns⟩ := List.forall_mem_cons.mp hns
    refine (hrecur w n scope hn he).bind fun ws v hws hv => ?_
    refine (ih (he.mono hws) hns).bind fun us vs hus hvs => ?_
    exact .pure (List.forall_mem_cons.mpr ⟨hv.mono hus, hvs⟩)

theorem sequence {ns : List Node} (hns : ∀ n ∈ ns, n.Proper) {last : Value} (hlast : last.From w) :
    KeepsBooks w Value.From (Evaluation.sequence recur scope last ns) := by
  induction ns generalizing w last with
  | nil => exact .pure hlast
  | cons n ns ih =>
    obtain ⟨hn, hns⟩ := List.forall_mem_cons.mp hns
    refine (hrecur w n scope hn he).bind fun ws v hws hv => ?_
    cases v
    case returned v => exact .pure hv
    all_goals exact ih (he.mono hws) hns hv

theorem binary {op : String} {a b : Node} (ha : a.Proper) (hb : b.Proper) :
    KeepsBooks w Value.From (Evaluation.binary recur op a b scope) := by
  have hbool {ws : Ledger} {c : Bool} : KeepsBooks ws Value.From (pure (.bool c)) := .pure trivial
  unfold Evaluation.binary
  split
  · refine (hrecur w a scope ha he).bind fun ws v hws hv => ?_
    split
    · exact (hrecur ws b scope hb (he.mono hws)).bind fun _ _ _ _ => hbool
    · exact hbool
  · refine (hrecur w a scope ha he).bind fun ws v hws hv => ?_
    split
    · exact hbool
    · exact (hrecur ws b scope hb (he.mono hws)).bind fun _ _ _ _ => hbool
  · refine (hrecur w a scope ha he).bind fun ws v hws hv => ?_
    refine (hrecur ws b scope hb (he.mono hws)).bind fun us u hus hu => ?_
    exact keepsBooks_operation fun _ => Operator.binary_isLiteral

theorem condition {n : Node} (hn : n.Proper) :
    KeepsBooks w (fun _ _ => True) (condition recur n scope) := by
  refine (hrecur w n scope hn he).bind fun ws v hws hv => ?_
  cases v
  case bool b => exact .pure trivial
  all_goals exact keepsBooks_fail _

theorem turn {cond body : Node} (hcond : cond.Proper) (hbody : body.Proper) :
    KeepsBooks w (fun ws r => ∀ v, r = some v → v.From ws)
      (Evaluation.turn recur cond body scope) := by
  refine (hrecur.condition he hcond).bind fun ws b hws _ => ?_
  split
  · refine keepsBooks_openChild.bind fun us inner hus hinner => ?_
    refine (hrecur us body inner hbody hinner).bind fun ts v hts hv => ?_
    cases v
    case returned v => exact .pure fun u hu => Option.some.inj hu ▸ hv
    all_goals exact .pure fun _ => nofun
  · refine .pure ?_
    rintro v ⟨⟩
    trivial

omit he in
theorem callFunction {d : Definition} (hbody : ∀ n ∈ d.body, n.Proper) {vs : List Value}
    (hvs : ∀ v ∈ vs, v.From w) (limit : Int) :
    KeepsBooks w Value.From (Evaluation.callFunction recur limit d scope vs) := by
  refine .asCall ?_ limit
  refine keepsBooks_openChild.bind fun ws inner hws hinner => ?_
  have hbound : ∀ b ∈ d.params.zip vs, b.2.From ws :=
    fun b hb => (hvs _ (List.of_mem_zip hb).2).mono hws
  refine (keepsBooks_bindAll hbound).bind fun us _ hus _ => ?_
  have hnil : Value.nil.From us := trivial
  refine (hrecur.sequence (hinner.mono hus) hbody hnil).bind fun ts v hts hv => ?_
  cases v
  case returned v => exact .pure hv
  all_goals exact .pure trivial

theorem call {callee : Node} {args : List Node} (hcallee : callee.Proper)
    (hargs : ∀ n ∈ args, n.Proper) (limit : Int) :
    KeepsBooks w Value.From (Evaluation.call recur limit callee args scope) := by
  have harity {ws : Ledger} {arity : Nat} {vs : List Value} {e : Recorded Value}
      (h : KeepsBooks ws Value.From e) :
      KeepsBooks ws Value.From (Evaluation.withArity arity vs e) := by
    unfold Evaluation.withArity
    split
    · exact h
    · exact keepsBooks_fail _
  refine (hrecur w callee scope hcallee he).bind fun ws v hws hv => ?_
  cases v
  case function i d closure =>
    refine (hrecur.all (he.mono hws) hargs).bind fun us vs hus hvs => harity ?_
    exact hrecur.callFunction hv.2.2 hvs limit
  case builtin b =>
    refine (hrecur.all (he.mono hws) hargs).bind fun us vs hus hvs => harity ?_
    exact keepsBooks_callBuiltin b vs
  all_goals exact keepsBooks_fail _

theorem perform {n : Node} (hn : n.Proper) (hfunction : ∀ d, n ≠ .function d)
    (hdeclared : ∀ pos d, n ≠ .declareFunction pos d) (limits : Limits) :
    KeepsBooks w Value.From (Evaluation.perform recur limits n scope) := by
  cases n with
  | literal pos v => exact .pure ((hn (.literal pos v) .self).from w)
  | name pos x => exact keepsBooks_lookup x
  | binary pos op a b =>
    exact hrecur.binary he (hn.part List.mem_cons_self)
      (hn.part (List.mem_cons_of_mem _ List.mem_cons_self))
  | unary pos op a =>
    refine (hrecur w a scope (hn.part List.mem_cons_self) he).bind fun ws v hws hv => ?_
    exact keepsBooks_operation fun _ => Operator.unary_isLiteral
  | assign pos x a =>
    refine (hrecur w a scope (hn.part List.mem_cons_self) he).bind fun ws v hws hv => ?_
    exact (keepsBooks_assign x hv).bind fun us _ hus _ => .pure (hv.mono hus)
  | call pos callee args =>
    exact hrecur.call he (hn.part List.mem_cons_self)
      (fun k hk => hn.part (List.mem_cons_of_mem _ hk)) limits.maxDepth
  | function d => exact (hfunction d rfl).elim
  | program pos ns =>
    have hnil : Value.nil.From w := trivial
    exact hrecur.sequence he (fun k hk => hn.part hk) hnil
  | expression pos a => exact hrecur w a scope (hn.part List.mem_cons_self) he
  | declareVar pos x a =>
    refine (hrecur w a scope (hn.part List.mem_cons_self) he).bind fun ws v hws hv => ?_
    exact (keepsBooks_define x hv).bind fun _ _ _ _ => .pure trivial
  | declareFunction pos d => exact (hdeclared pos d rfl).elim
  | block pos ns =>
    refine keepsBooks_openChild.bind fun ws inner hws hinner => ?_
    have hnil : Value.nil.From ws := trivial
    exact hrecur.sequence hinner (fun k hk => hn.part hk) hnil
  | conditional pos c a b =>
    refine (hrecur.condition he (hn.part List.mem_cons_self)).bind fun ws r hws _ => ?_
    split
    · exact hrecur ws a scope (hn.part (List.mem_cons_of_mem _ List.mem_cons_self)) (he.mono hws)
    · cases b with
      | none => exact .pure trivial
      | some b =>
        have hb : b ∈ (Node.conditional pos c a (some b)).parts :=
          List.mem_cons_of_mem _ (List.mem_cons_of_mem _ List.mem_cons_self)
        exact hrecur ws b scope (hn.part hb) (he.mono hws)
  | loop pos c b =>
    refine .repeatUntil (fun ws hws => ?_) _
    exact hrecur.turn (he.mono hws) (hn.part List.mem_cons_self)
      (hn.part (List.mem_cons_of_mem _ List.mem_cons_self))
  | ret pos a =>
    cases a with
    | none => exact .pure trivial
    | some a =>
      exact (hrecur w a scope (hn.part List.mem_cons_self) he).bind fun _ _ _ hv => .pure hv
  | hole pos sort => exact keepsBooks_fail _

end KeepsBooksNodes

namespace KeepsBooks

variable {w : Ledger} {n : Node} {scope : Scope}

theorem noted {x : (Except Stop Value × Machine) × List Note} (h : Books w Value.From x)
    (hnone : (Note.evaluated n scope x.1.1 x.1.2).makes? = none)
    (hmakes : (Note.evaluated n scope x.1.1 x.1.2).Makes) :
    Books w Value.From (x.1, x.2 ++ [.evaluated n scope x.1.1 x.1.2]) := by
  obtain ⟨⟨r, m⟩, notes⟩ := x
  have hafter : w.after ((r, m), notes ++ [.evaluated n scope r m]) = w.after ((r, m), notes) := by
    simp [Ledger.after, functionsMade, hnone]
  refine ⟨h.frames, hafter.symm ▸ h.booked, hafter.symm ▸ h.value, ?_⟩
  refine h.traced.append ⟨⟨hmakes, fun i d closure hfound => ?_⟩, trivial⟩
  rw [hnone, Option.toList_none, List.append_nil]
  rcases hfound with hfound | rfl | rfl
  · exact (h.booked.bound _ hfound).1
  · exact (h.value _ rfl).1
  · exact (h.value _ rfl).1

theorem noting_bind {α : Type} {post : Ledger → α → Prop} {e : Recorded α}
    {f : α → Recorded Value} (he : KeepsBooks w post e)
    (hf : ∀ ws a, w.Le ws → post ws a → KeepsBooks ws Value.From (Recorded.noting n scope (f a))) :
    KeepsBooks w Value.From (Recorded.noting n scope (e >>= f)) := by
  intro m hm
  have hem := he m hm
  have hbind := he.bind hf m hm
  rw [Recorded.bind_apply] at hbind
  simp only [Recorded.noting, Recorded.bind_apply] at hbind ⊢
  generalize e m = x at hem hbind ⊢
  obtain ⟨⟨s | a, k⟩, h⟩ := x
  · have hstopped : Books w Value.From ((.error s, k), h) :=
      ⟨hem.frames, hem.booked, nofun, hem.traced⟩
    refine noted hstopped ?_ ?_
    all_goals cases n <;> first | rfl | trivial
  · rwa [List.append_assoc]

theorem visit {recur : Node → Scope → Recorded Value} {limits : Limits}
    (h : ∀ ws, w.Le ws → KeepsBooks ws Value.From (Recorded.noting n scope
      (Recorded.mapStop (Stop.locate n.pos) (Evaluation.perform recur limits n scope)))) :
    KeepsBooks w Value.From (Recorded.noting n scope (Evaluation.visit recur limits n scope)) :=
  noting_bind (keepsBooks_countStep limits.maxSteps n.pos) fun ws _ hws _ => h ws hws

theorem maker {e : Recorded Value}
    (he : ∀ m, m.Booked w → ∃ v r m', e m = ((.ok r, m'), [.action m m']) ∧
      (Note.evaluated n scope (.ok r) m').makes? = some v ∧
      (Note.evaluated n scope (.ok r) m').Makes ∧
      m'.Booked ⟨w.made ++ [v], w.frames⟩ ∧ r.From ⟨w.made ++ [v], w.frames⟩) (f : Stop → Stop) :
    KeepsBooks w Value.From (Recorded.noting n scope (Recorded.mapStop f e)) := by
  intro m hm
  obtain ⟨v, r, m', hem, hmade, hmakes, hbooked, hr⟩ := he m hm
  have hall : Recorded.noting n scope (Recorded.mapStop f e) m =
      ((.ok r, m'), [.action m m', .evaluated n scope (.ok r) m']) := by
    simp only [Recorded.noting, Recorded.mapStop, hem]
    rfl
  have haction : (Note.action m m').makes? = none := rfl
  have hafter : w.after (Recorded.noting n scope (Recorded.mapStop f e) m) =
      ⟨w.made ++ [v], w.frames⟩ := by
    have hframes : w.frames = m'.store.fresh := hbooked.frames
    simp [hall, Ledger.after, functionsMade, haction, hmade, hframes]
  refine ⟨?_, ?_, ?_, ?_⟩
  · rw [hall]
    exact Nat.le_of_eq hbooked.frames
  · rwa [hafter, hall]
  · rw [hafter, hall]
    rintro _ ⟨⟩
    exact hr
  · rw [hall]
    -- What the action finds was there before, what the node leaves may be the new function.
    refine ⟨⟨trivial, fun i d closure hfound => ?_⟩, ⟨hmakes, fun i d closure hfound => ?_⟩, trivial⟩
    · exact List.mem_append_left _ (hm.bound _ hfound).1
    · rw [haction, Option.toList_none, List.append_nil, hmade, Option.toList_some]
      rcases hfound with hfound | hfound | hfound
      · exact (hbooked.bound _ hfound).1
      · obtain rfl := Except.ok.inj hfound
        exact hr.1
      · obtain rfl := Except.ok.inj hfound
        exact hr.1

theorem function {d : Definition} (he : w.Sees scope) (hbody : ∀ k ∈ d.body, k.Proper)
    (f : Stop → Stop) :
    KeepsBooks w Value.From (Recorded.noting (.function d) scope
      (Recorded.mapStop f (Recorded.act (Evaluation.makeFunction d scope)))) := by
  refine maker (fun m hm => ?_) f
  obtain ⟨-, hv, hbooked⟩ := hm.make he hbody
  exact ⟨.function m.made d scope, _, _, rfl, rfl, ⟨m.made, rfl⟩, hbooked, hv⟩

theorem declareFunction {pos : Option Position} {d : Definition} {x : String} (hx : d.name = some x)
    (he : w.Sees scope) (hbody : ∀ k ∈ d.body, k.Proper) (f : Stop → Stop) :
    KeepsBooks w Value.From (Recorded.noting (.declareFunction pos d) scope (Recorded.mapStop f (do
      Recorded.act do Evaluation.defineNamed scope d.name (← Evaluation.makeFunction d scope)
      return .nil))) := by
  refine maker (fun m hm => ?_) f
  obtain ⟨-, hv, hbooked⟩ := hm.make he hbody
  let v : Value := .function m.made d scope
  have hget : (m.store.define scope x v).get? scope x = some v := by
    obtain ⟨a, ha, hlt⟩ := he
    rw [hm.frames] at hlt
    exact Store.get?_define ha hlt x v
  refine ⟨v, .nil, { m with made := m.made + 1, store := m.store.define scope x v }, ?_, ?_, ?_,
    hbooked.define scope x hv, trivial⟩
  · rw [hx]
    rfl
  · simp only [Note.makes?, hx, Option.bind_some]
    exact hget
  · exact ⟨x, m.made, hx, hget⟩

end KeepsBooks

theorem keepsBooksNodes_within (limits : Limits) (room : Nat) :
    KeepsBooksNodes (Node.recordWithin limits room) := by
  induction room with
  | zero => exact fun w n scope hn he => keepsBooks_fail _
  | succ room ih =>
    intro w n scope hn he
    refine KeepsBooks.visit fun ws hws => ?_
    have he := he.mono hws
    have hplain (hfunction : ∀ d, n ≠ .function d) (hdeclared : ∀ pos d, n ≠ .declareFunction pos d) :=
      ih.perform he hn hfunction hdeclared limits
    cases n with
    | function d => exact .function he (fun k hk => hn.part hk) _
    | declareFunction pos d =>
      obtain ⟨x, hx⟩ := Option.isSome_iff_exists.mp (hn (.declareFunction pos d) .self)
      exact .declareFunction hx he (fun k hk => hn.part hk) _
    | _ =>
      intro m hm
      exact KeepsBooks.noted ((hplain nofun nofun).mapStop _ m hm) rfl trivial

namespace Program

variable {w : Ledger} {scope : Scope} {statements : List Node}

theorem keepsBooks_from (limits : Limits) (he : w.Sees scope)
    (hstatements : ∀ n ∈ statements, n.Proper) {last : Value} (hlast : last.From w) :
    KeepsBooks w Value.From (recordFrom limits scope last statements) := by
  induction statements generalizing w last with
  | nil => exact .pure hlast
  | cons n ns ih =>
    obtain ⟨hn, hns⟩ := List.forall_mem_cons.mp hstatements
    have hnode := (keepsBooksNodes_within limits limits.evaluationRoom w n scope hn he).mapStop
      (Stop.settle n.pos)
    refine hnode.bind fun ws v hws hv => ?_
    cases v
    case returned v => exact keepsBooks_fail _
    all_goals exact ih (he.mono hws) hns hv

theorem keepsBooks_record (limits : Limits) (he : w.Sees scope)
    (hstatements : ∀ n ∈ statements, n.Proper) :
    KeepsBooks w Value.From (record limits statements scope) := by
  have hreset : KeepsBooks w (fun _ _ => True)
      (Recorded.act (modify fun m : Machine => { m with steps := 0, depth := 0 })) :=
    .of_store (fun _ => rfl) (fun _ => Nat.le_refl _) fun _ _ _ _ => trivial
  refine hreset.bind fun ws _ hws _ => ?_
  have hnil : Value.nil.From ws := trivial
  exact keepsBooks_from limits (he.mono hws) hstatements hnil

end Program

end Scriptlet
