import Scriptlet.Proofs.Pairing
import Scriptlet.Proofs.Simulation

namespace Scriptlet

variable {ρ : Pairing}

namespace Frame.Like

variable {f f' : Frame}

theorem names (h : f.Like ρ f') : f.names = f'.names := by
  induction h with
  | nil => rfl
  | cons hb _ ih => exact List.cons_eq_cons.mpr ⟨hb.1, ih⟩

theorem contains (h : f.Like ρ f') (x : String) : f.contains x = f'.contains x := by
  rw [Bool.eq_iff_iff, Frame.contains_iff_mem_names, Frame.contains_iff_mem_names, h.names]

theorem get? (h : f.Like ρ f') (x : String) :
    Option.Rel (Value.Like ρ) (f.get? x) (f'.get? x) := by
  induction h with
  | nil => exact .none
  | cons hb _ ih =>
    rw [Frame.get?_cons, Frame.get?_cons, hb.1]
    split
    · exact .some hb.2
    · exact ih

theorem set (h : f.Like ρ f') (x : String) {v v' : Value} (hv : v.Like ρ v') :
    (f.set x v).Like ρ (f'.set x v') := by
  induction h with
  | nil => exact .cons ⟨rfl, hv⟩ .nil
  | cons hb hf ih =>
    rw [Frame.set, Frame.set, hb.1]
    split
    · exact .cons ⟨rfl, hv⟩ hf
    · exact .cons ⟨rfl, hb.2⟩ ih

end Frame.Like

def Store.Spares (ρ : Pairing) (s t : Store) : Prop :=
  ∀ a, (∀ a', ¬ρ.address a a') → t.frame a = s.frame a

theorem Store.Spares.trans {s t u : Store} (h : s.Spares ρ t) (h' : t.Spares ρ u) : s.Spares ρ u :=
  fun a ha => (h' a ha).trans (h a ha)

theorem Store.like_self (hρ : ρ.Reflexive) (haddress : ∀ {a a'}, ρ.address a a' → a = a')
    (s : Store) : s.Like ρ s where
  frames h := by
    obtain rfl := haddress h
    exact List.forall₂_same.mpr fun b _ => ⟨rfl, .refl hρ b.2⟩
  fresh _ := hρ.address _

namespace Store.Like

variable {s s' : Store} {a a' : Address} {e e' : Scope} {v v' : Value}

theorem lt_fresh_iff (h : s.Like ρ s') (ha : ρ.address a a') : a < s.fresh ↔ a' < s'.fresh := by
  constructor
  · intro hlt
    by_contra hge
    have ha' : s'.fresh + (a' - s'.fresh) = a' := Nat.add_sub_of_le (Nat.not_lt.mp hge)
    have heq := (ρ.address_unique ha (h.fresh (a' - s'.fresh))).mpr ha'.symm
    exact Nat.not_lt.mpr (Nat.le_add_right s.fresh _) (heq ▸ hlt)
  · intro hlt
    by_contra hge
    have ha' : s.fresh + (a - s.fresh) = a := Nat.add_sub_of_le (Nat.not_lt.mp hge)
    have heq := (ρ.address_unique ha (h.fresh (a - s.fresh))).mp ha'.symm
    exact Nat.not_lt.mpr (Nat.le_add_right s'.fresh _) (heq ▸ hlt)

theorem update (h : s.Like ρ s') (ha : ρ.address a a') (x : String) (hv : v.Like ρ v') :
    (s.update a x v).Like ρ (s'.update a' x v') := by
  by_cases hlt : a < s.fresh
  · have hlt' := (h.lt_fresh_iff ha).mp hlt
    refine ⟨fun {b b'} hb => ?_, fun k => ?_⟩
    · rw [frame_update s a b x v hlt, frame_update s' a' b' x v' hlt']
      by_cases heq : b = a
      · rw [if_pos heq, if_pos ((ρ.address_unique hb ha).mp heq)]
        exact (h.frames hb).set x hv
      · rw [if_neg heq, if_neg (mt (ρ.address_unique hb ha).mpr heq)]
        exact h.frames hb
    · rw [fresh_update, fresh_update]
      exact h.fresh k
  · have hge' := mt (h.lt_fresh_iff ha).mpr hlt
    rwa [update_of_fresh_le s x v (Nat.not_lt.mp hlt),
      update_of_fresh_le s' x v' (Nat.not_lt.mp hge')]

theorem push (h : s.Like ρ s') {f f' : Frame} (hf : f.Like ρ f') :
    (s.push f).Like ρ (s'.push f') := by
  have hfresh : ρ.address s.fresh s'.fresh := h.fresh 0
  refine ⟨fun {a a'} ha => ?_, fun k => ?_⟩
  · rw [frame_push, frame_push]
    by_cases heq : a = s.fresh
    · rw [if_pos heq, if_pos ((ρ.address_unique ha hfresh).mp heq)]
      exact hf
    · rw [if_neg heq, if_neg (mt (ρ.address_unique ha hfresh).mpr heq)]
      exact h.frames ha
  · rw [fresh_push, fresh_push, Nat.add_assoc, Nat.add_assoc]
    exact h.fresh (1 + k)

theorem resolve (h : s.Like ρ s') (he : ρ.scope e e') (x : String) :
    Option.Rel ρ.address (s.resolve e x) (s'.resolve e' x) := by
  unfold Store.resolve
  induction he with
  | nil => exact .none
  | cons ha _ ih =>
    rw [List.find?_cons, List.find?_cons, (h.frames ha).contains x]
    split
    · exact .some ha
    · exact ih

theorem get? (h : s.Like ρ s') (he : ρ.scope e e') (x : String) :
    Option.Rel (Value.Like ρ) (s.get? e x) (s'.get? e' x) := by
  have hresolve := h.resolve he x
  unfold Store.get?
  cases hx : s.resolve e x <;> cases hx' : s'.resolve e' x
  all_goals
    rw [hx, hx'] at hresolve
    cases hresolve
  · exact .none
  · rename_i ha
    exact (h.frames ha).get? x

theorem define (h : s.Like ρ s') (he : ρ.scope e e') (x : String) (hv : v.Like ρ v') :
    (s.define e x v).Like ρ (s'.define e' x v') := by
  cases he with
  | nil => exact h
  | cons ha _ => exact h.update ha x hv

theorem assign? (h : s.Like ρ s') (he : ρ.scope e e') (x : String) (hv : v.Like ρ v') :
    Option.Rel (Store.Like ρ) (s.assign? e x v) (s'.assign? e' x v') := by
  have hresolve := h.resolve he x
  unfold Store.assign?
  cases hx : s.resolve e x <;> cases hx' : s'.resolve e' x
  all_goals
    rw [hx, hx'] at hresolve
    cases hresolve
  · exact .none
  · rename_i ha
    exact .some (h.update ha x hv)

theorem spares_update (s : Store) (ha : ρ.address a a') (x : String) (v : Value) :
    s.Spares ρ (s.update a x v) := by
  intro b hb
  by_cases hlt : a < s.fresh
  · rw [frame_update s a b x v hlt, if_neg]
    rintro rfl
    exact hb a' ha
  · rw [update_of_fresh_le s x v (Nat.not_lt.mp hlt)]

theorem spares_push (h : s.Like ρ s') (f : Frame) : s.Spares ρ (s.push f) := by
  intro b hb
  rw [frame_push, if_neg]
  rintro rfl
  exact hb _ (h.fresh 0)

theorem spares_define (s : Store) (he : ρ.scope e e') (x : String) (v : Value) :
    s.Spares ρ (s.define e x v) := by
  cases he with
  | nil => exact fun _ _ => rfl
  | cons ha _ => exact spares_update s ha x v

theorem spares_assign (he : ρ.scope e e') {x : String} {v : Value} {t : Store}
    (ht : s.assign? e x v = some t) : s.Spares ρ t := by
  obtain ⟨a, ha, rfl⟩ := Option.map_eq_some_iff.mp ht
  have hmem : a ∈ e := List.mem_of_find?_eq_some ha
  obtain ⟨i, hi, rfl⟩ := List.getElem_of_mem hmem
  exact spares_update s (List.Forall₂.get he hi (he.length_eq ▸ hi)) x v

end Store.Like

inductive Ends {α : Type} (ρ : Pairing) (Q : α → α → Prop) : Except Stop α → Except Stop α → Prop
  | value {a a' : α} (h : Q a a') : Ends ρ Q (.ok a) (.ok a')
  | stop {s s' : Stop} (h : s.Like ρ s') : Ends ρ Q (.error s) (.error s')

inductive ComesAlike (ρ : Pairing) : Except Failure Value → Except Failure Value → Prop
  | value {v v' : Value} (h : v.Like ρ v') (htext : v.text = v'.text) :
      ComesAlike ρ (.ok v) (.ok v')
  | failure {f f' : Failure} (h : f.Like ρ f') : ComesAlike ρ (.error f) (.error f')

theorem Ends.comesAlike {x x' : Except Stop Value} (h : Ends ρ (Value.Like ρ) x x')
    {f : Stop → Failure} (hf : ∀ s s', s.Like ρ s' → (f s).Like ρ (f s')) :
    ComesAlike ρ (x.mapError f) (x'.mapError f) := by
  cases h with
  | value hv => exact .value hv hv.text
  | stop hs => exact .failure (hf _ _ hs)

theorem Ends.imp {σ : Pairing} {x x' : Except Stop Value} (hσ : ρ.Within σ)
    (h : Ends ρ (Value.Like ρ) x x') : Ends σ (Value.Like σ) x x' := by
  cases h with
  | value hv => exact .value (hv.imp hσ)
  | stop hs => exact .stop (hs.imp hσ)

theorem Ends.eq {x x' : Except Stop Value} (hρ : ρ.Exact) (h : Ends ρ (Value.Like ρ) x x') :
    x = x' := by
  cases h with
  | value hv => rw [hv.eq hρ]
  | stop hs => rw [hs.eq hρ]

structure Paired {α : Type} (ρ : Pairing) (Q : α → α → Prop) (m : Machine)
    (x x' : Except Stop α × Machine) : Prop where
  ends : Ends ρ Q x.1 x'.1
  machine : x.2.Like ρ x'.2
  spares : m.store.Spares ρ x.2.store

def Parallel {α : Type} (ρ : Pairing) (Q : α → α → Prop) (e e' : Evaluation α) : Prop :=
  ∀ m m', m.Like ρ m' → Paired ρ Q m (e m) (e' m')

theorem Stop.Like.locate {s s' : Stop} (h : s.Like ρ s') {p p' : Option Position}
    (hp : ρ.position p p') : (s.locate p).Like ρ (s'.locate p') := by
  cases h with
  | @error q q' fault hq =>
    have hsome := ρ.position_isSome hq
    cases q <;> cases q' <;> cases hsome
    · exact .error fault hp
    · exact .error fault hq
  | unknownOperator op => exact .unknownOperator op
  | exhausted => exact .exhausted
  | endless => exact .endless

theorem Stop.Like.settle {s s' : Stop} (h : s.Like ρ s') {p p' : Option Position}
    (hp : ρ.position p p') : (s.settle p).Like ρ (s'.settle p') := by
  cases h with
  | error fault hq => exact .error fault hq
  | unknownOperator op => exact .unknownOperator op
  | exhausted => exact .error .recursion hp
  | endless => exact .endless

theorem Stop.like_error (ρ : Pairing) (fault : RuntimeFault) :
    (Stop.error fault none).Like ρ (.error fault none) :=
  .error fault ρ.position_none

namespace Parallel

variable {α β : Type} {Q : α → α → Prop} {R : β → β → Prop} {e e' : Evaluation α}

theorem pure {a a' : α} (h : Q a a') : Parallel ρ Q (pure a) (pure a') :=
  fun _ _ hm => ⟨.value h, hm, fun _ _ => rfl⟩

theorem throw {s s' : Stop} (h : s.Like ρ s') : Parallel ρ Q (throw s) (throw s') :=
  fun _ _ hm => ⟨.stop h, hm, fun _ _ => rfl⟩

theorem fail (fault : RuntimeFault) : Parallel ρ Q (Evaluation.fail fault) (Evaluation.fail fault) :=
  throw (Stop.like_error ρ fault)

theorem ofExcept {x x' : Except Stop α} (h : Ends ρ Q x x') :
    Parallel ρ Q (Evaluation.ofExcept x) (Evaluation.ofExcept x') :=
  fun _ _ hm => ⟨h, hm, fun _ _ => rfl⟩

theorem bind {f f' : α → Evaluation β} (he : Parallel ρ Q e e')
    (hf : ∀ a a', Q a a' → Parallel ρ R (f a) (f' a')) : Parallel ρ R (e >>= f) (e' >>= f') := by
  intro m m' hm
  obtain ⟨hends, hmachine, hspares⟩ := he m m' hm
  rw [Evaluation.bind_apply, Evaluation.bind_apply]
  rcases hx : e m with ⟨x, n⟩
  rcases hx' : e' m' with ⟨x', n'⟩
  rw [hx, hx'] at hends hmachine
  rw [hx] at hspares
  cases hends with
  | stop hs => exact ⟨.stop hs, hmachine, hspares⟩
  | value ha =>
    obtain ⟨hends', hmachine', hspares'⟩ := hf _ _ ha n n' hmachine
    exact ⟨hends', hmachine', hspares.trans hspares'⟩

theorem mapStop {f f' : Stop → Stop} (h : Parallel ρ Q e e')
    (hf : ∀ s s', s.Like ρ s' → (f s).Like ρ (f' s')) :
    Parallel ρ Q (Evaluation.mapStop f e) (Evaluation.mapStop f' e') := by
  intro m m' hm
  obtain ⟨hends, hmachine, hspares⟩ := h m m' hm
  refine ⟨?_, hmachine, hspares⟩
  change Ends ρ Q ((e m).1.mapError f) ((e' m').1.mapError f')
  generalize (e m).1 = x at hends ⊢
  generalize (e' m').1 = x' at hends ⊢
  cases hends with
  | value ha => exact .value ha
  | stop hs => exact .stop (hf _ _ hs)

theorem asCall (h : Parallel ρ Q e e') (limit : Int) :
    Parallel ρ Q (Evaluation.asCall limit e) (Evaluation.asCall limit e') := by
  intro m m' hm
  by_cases hle : limit ≤ m.depth
  · rw [Evaluation.asCall_of_le hle, Evaluation.asCall_of_le (hm.depth ▸ hle)]
    exact ⟨.stop (Stop.like_error ρ _), hm, fun _ _ => rfl⟩
  · have hlt := Int.not_le.mp hle
    rw [Evaluation.asCall_of_lt hlt, Evaluation.asCall_of_lt (hm.depth ▸ hlt)]
    obtain ⟨hends, hmachine, hspares⟩ := h { m with depth := m.depth + 1 }
      { m' with depth := m'.depth + 1 } { hm with depth := congrArg (· + 1) hm.depth }
    exact ⟨hends, { hmachine with depth := congrArg (· - 1) hmachine.depth }, hspares⟩

theorem repeatUntil {turn turn' : Evaluation (Option Value)} {Q : Value → Value → Prop}
    (h : Parallel ρ (Option.Rel Q) turn turn') (n : Nat) :
    Parallel ρ Q (Evaluation.repeatUntil turn n) (Evaluation.repeatUntil turn' n) := by
  induction n with
  | zero => exact throw .endless
  | succ n ih =>
    have hturn := LawfulCarrier.repeatUntil_succ (M := Evaluation) turn n
    have hturn' := LawfulCarrier.repeatUntil_succ (M := Evaluation) turn' n
    change Evaluation.repeatUntil turn (n + 1) = _ at hturn
    change Evaluation.repeatUntil turn' (n + 1) = _ at hturn'
    rw [hturn, hturn']
    apply h.bind
    rintro r r' (hr | _)
    · exact pure hr
    · exact ih

end Parallel

end Scriptlet
