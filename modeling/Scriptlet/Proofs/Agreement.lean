import Scriptlet.Proofs.History
import Scriptlet.Proofs.LexemeText
import Scriptlet.Proofs.ScopeTree
import Scriptlet.Proofs.Unwinding

namespace Scriptlet

open Evaluation (all condition openChild)

def RuntimeFault.Regular : RuntimeFault → Prop
  | returnOutside | hole _ => False
  | _ => True

namespace Stop

variable {P : Token → Prop}

def Located (P : Token → Prop) : Stop → Prop
  | error fault pos => fault.Regular ∧ ∃ t, P t ∧ pos = some t.pos
  | unknownOperator _ => ∃ t, P t ∧ ¬t.Spelled
  | exhausted | endless => True

def Tame (P : Token → Prop) (s : Stop) : Prop :=
  s.Located P ∨ ∃ fault, fault.Regular ∧ s = error fault none

theorem Tame.locate {s : Stop} (h : s.Tame P) {t : Token} (ht : P t) :
    (s.locate (some t.pos)).Located P := by
  rcases h with h | ⟨fault, hfault, rfl⟩
  · cases s with
    | error fault pos =>
      obtain ⟨hfault, u, hu, rfl⟩ := h
      exact ⟨hfault, u, hu, rfl⟩
    | _ => exact h
  · exact ⟨hfault, t, ht, rfl⟩

end Stop

def Value.Fits (P : Token → Prop) (ss : List Scope) (f : Bool) (r : Role) : Value → Prop
  | .returned v => f = true ∧ r ≠ .expression ∧ v.Closed P ss
  | v => v.Closed P ss

def Note.Closed (P : Token → Prop) (ss : List Scope) : Note → Prop
  | action before after =>
    before.Closed P (ss.take before.store.fresh) ∧ after.Closed P (ss.take after.store.fresh)
  | evaluated node scope result after =>
    after.Closed P (ss.take after.store.fresh) ∧ scope ∈ ss.take after.store.fresh ∧
      ∃ f r, Formed P f r node ∧ ∀ v, result = .ok v → v.Fits P (ss.take after.store.fresh) f r

theorem Value.Fits.mono {P : Token → Prop} {ss ts : List Scope} {f : Bool} {r : Role} {v : Value}
    (h : v.Fits P ss f r) (hss : ss <+: ts) : v.Fits P ts f r := by
  cases v with
  | returned v => exact ⟨h.1, h.2.1, h.2.2.mono hss⟩
  | function i d scope => exact ⟨hss.subset h.1, h.2⟩
  | _ => trivial

theorem Note.Closed.mono {P : Token → Prop} {ss ts : List Scope} {note : Note}
    (h : note.Closed P ss) (hss : ss <+: ts) : note.Closed P ts := by
  cases note with
  | action before after => exact ⟨h.1.take_mono hss, h.2.take_mono hss⟩
  | evaluated node scope result after =>
    obtain ⟨hafter, hscope, f, r, hnode, hresult⟩ := h
    have htake : ss.take after.store.fresh <+: ts.take after.store.fresh := by
      obtain ⟨us, rfl⟩ := hss
      rw [List.take_append]
      exact List.prefix_append _ _
    exact ⟨hafter.take_mono hss, htake.subset hscope, f, r, hnode, fun v hv => (hresult v hv).mono htake⟩

inductive Meets {α : Type} (E : Stop → Prop) (post : α → Prop) (back : Value → α → Prop) :
    Except Stop α → Except Exit α → Prop
  | value {a : α} (h : post a) : Meets E post back (.ok a) (.ok a)
  | stop {s : Stop} (h : E s) : Meets E post back (.error s) (.error (.stop s))
  | back {v : Value} {a : α} (h : back v a) : Meets E post back (.ok a) (.error (.returning v))

structure Alike {α : Type} (P : Token → Prop) (ss : List Scope) (E : Stop → Prop) (post : α → Prop)
    (back : Value → α → Prop) (x : (Except Stop α × Machine) × List Note)
    (y : Except Exit α × Machine) : Prop where
  machine : y.2 = x.1.2
  closed : x.1.2.Closed P ss
  meets : Meets E post back x.1.1 y.1
  history : ∀ note ∈ x.2, note.Closed P ss

def Follows {α : Type} (P : Token → Prop) (ss : List Scope) (E : Stop → Prop)
    (post : List Scope → α → Prop) (back : List Scope → Value → α → Prop) (e : Recorded α)
    (u : Unwinding α) : Prop :=
  ∀ m, m.Closed P ss → ∃ ts, Grows ss ts ∧ Alike P ts E (post ts) (back ts) (e m) (u m)

structure Acted {α : Type} (P : Token → Prop) (ss : List Scope) (E : Stop → Prop) (post : α → Prop)
    (x : Except Stop α × Machine) : Prop where
  closed : x.2.Closed P ss
  value : ∀ a, x.1 = .ok a → post a
  stop : ∀ s, x.1 = .error s → E s

def Acts {α : Type} (P : Token → Prop) (ss : List Scope) (E : Stop → Prop) (post : α → Prop)
    (e : Evaluation α) : Prop :=
  ∀ m, m.Closed P ss → Acted P ss E post (e m)

def noBack {α : Type} (_ : List Scope) (_ : Value) (_ : α) : Prop :=
  False

theorem Meets.eq_mapError {α : Type} {E : Stop → Prop} {post : α → Prop} {x : Except Stop α}
    {y : Except Exit α} {ss : List Scope} (h : Meets E post (noBack ss) x y) :
    y = x.mapError .stop ∧ (∀ a, x = .ok a → post a) ∧ ∀ s, x = .error s → E s := by
  cases h with
  | value h => exact ⟨rfl, fun _ ha => Except.ok.inj ha ▸ h, fun _ hs => nomatch hs⟩
  | stop h => exact ⟨rfl, (fun _ ha => nomatch ha), fun _ hs => Except.error.inj hs ▸ h⟩
  | back h => exact h.elim

section

variable {α β : Type} {P : Token → Prop} {ss : List Scope} {E : Stop → Prop} {post : α → Prop}
  {m : Machine}

theorem acted_ok {a : α} (hm : m.Closed P ss) (h : post a) : Acted P ss E post (.ok a, m) :=
  ⟨hm, fun _ ha => Except.ok.inj ha ▸ h, fun _ hs => nomatch hs⟩

theorem acted_error {s : Stop} (hm : m.Closed P ss) (h : E s) :
    Acted P ss E post ((.error s : Except Stop α), m) :=
  ⟨hm, (fun _ ha => nomatch ha), fun _ hs => Except.error.inj hs ▸ h⟩

namespace Acts

theorem pure {a : α} (h : post a) : Acts P ss E post (pure a) :=
  fun _ hm => acted_ok hm h

theorem throw {s : Stop} (h : E s) : Acts P ss E post (throw s) :=
  fun _ hm => acted_error hm h

theorem bind {post' : β → Prop} {e : Evaluation α} {f : α → Evaluation β} (he : Acts P ss E post e)
    (hf : ∀ a, post a → Acts P ss E post' (f a)) : Acts P ss E post' (e >>= f) := by
  intro m hm
  obtain ⟨hclosed, hvalue, hstop⟩ := he m hm
  rw [Evaluation.bind_apply]
  rcases hx : e m with ⟨s | a, n⟩
  all_goals rw [hx] at hclosed hvalue hstop
  · exact acted_error hclosed (hstop s rfl)
  · exact hf a (hvalue a rfl) n hclosed

end Acts

end

namespace Follows

variable {α β : Type} {P : Token → Prop} {ss : List Scope} {E E' : Stop → Prop}
  {post post' : List Scope → α → Prop} {back back' : List Scope → Value → α → Prop}
  {e : Recorded α} {u : Unwinding α}

theorem mono (h : Follows P ss E post back e u) (hE : ∀ s, E s → E' s)
    (hpost : ∀ ts a, post ts a → post' ts a) (hback : ∀ ts v a, back ts v a → back' ts v a) :
    Follows P ss E' post' back' e u := by
  intro m hm
  obtain ⟨ts, hgrows, hmachine, hclosed, hmeets, hhistory⟩ := h m hm
  refine ⟨ts, hgrows, hmachine, hclosed, ?_, hhistory⟩
  generalize (e m).1.1 = x at hmeets ⊢
  generalize (u m).1 = y at hmeets ⊢
  cases hmeets with
  | value h => exact .value (hpost ts _ h)
  | stop h => exact .stop (hE _ h)
  | back h => exact .back (hback ts _ _ h)

theorem pure {a : α} (h : post ss a) : Follows P ss E post back (pure a) (pure a) :=
  fun _ hm => ⟨ss, .refl, rfl, hm, .value h, List.forall_mem_nil _⟩

theorem ret {v : Value} {a : α} (h : back ss v a) :
    Follows P ss E post back (Pure.pure a) (Unwinding.ret v) :=
  fun _ hm => ⟨ss, .refl, rfl, hm, .back h, List.forall_mem_nil _⟩

theorem act {e : Evaluation α} (h : Acts P ss E (post ss) e) :
    Follows P ss E post back (Recorded.act e) (Unwinding.act e) := by
  intro m hm
  obtain ⟨hclosed, hpost, hstop⟩ := h m hm
  refine ⟨ss, .refl, rfl, hclosed, ?_, ?_⟩
  · change Meets E _ _ (e m).1 ((e m).1.mapError .stop)
    rcases hx : (e m).1 with s | a
    · exact .stop (hstop s hx)
    · exact .value (hpost a hx)
  · intro note hnote
    obtain rfl := List.mem_singleton.mp hnote
    exact ⟨hm.take (List.prefix_refl ss), hclosed.take (List.prefix_refl ss)⟩

theorem effect {e : Evaluation α} {back : List Scope → Value → α → Prop}
    (h : Acts P ss E (fun _ => True) e) :
    Follows P ss E (fun _ _ => True) back (Recorded.act e) (Unwinding.act e) :=
  act h

theorem bindBack {post : List Scope → α → Prop} {post' : List Scope → β → Prop}
    {back : List Scope → Value → α → Prop} {back' : List Scope → Value → β → Prop} {f : α → Recorded β}
    {g : α → Unwinding β} (h : Follows P ss E post back e u)
    (hf : ∀ ts a, Grows ss ts → post ts a → Follows P ts E post' back' (f a) (g a))
    (hback : ∀ ts v a, back ts v a → ∃ b, f a = Pure.pure b ∧ back' ts v b) :
    Follows P ss E post' back' (e >>= f) (u >>= g) := by
  intro m hm
  obtain ⟨ts, hgrows, hmachine, hclosed, hmeets, hhistory⟩ := h m hm
  rw [Recorded.bind_apply, Unwinding.bind_apply]
  rcases hx : e m with ⟨⟨x, n⟩, notes⟩
  rcases hy : u m with ⟨y, k⟩
  rw [hx] at hmachine hclosed hmeets hhistory
  rw [hy] at hmachine hmeets
  obtain rfl : k = n := hmachine
  cases hmeets with
  | stop hs => exact ⟨ts, hgrows, rfl, hclosed, .stop hs, hhistory⟩
  | back hv =>
    obtain ⟨b, hb, hv'⟩ := hback ts _ _ hv
    refine ⟨ts, hgrows, ?_⟩
    simp only [hb]
    exact ⟨rfl, hclosed, .back hv', by simpa [Pure.pure] using hhistory⟩
  | @value a ha =>
    obtain ⟨us, hgrows', hmachine', hclosed', hmeets', hhistory'⟩ := hf ts a hgrows ha k hclosed
    refine ⟨us, hgrows.trans hgrows', hmachine', hclosed', hmeets', fun note hnote => ?_⟩
    rcases List.mem_append.mp hnote with hnote | hnote
    · exact (hhistory note hnote).mono hgrows'.isPrefix
    · exact hhistory' note hnote

theorem bind {post : List Scope → α → Prop} {post' : List Scope → β → Prop}
    {back' : List Scope → Value → β → Prop} {f : α → Recorded β} {g : α → Unwinding β}
    (h : Follows P ss E post noBack e u)
    (hf : ∀ ts a, Grows ss ts → post ts a → Follows P ts E post' back' (f a) (g a)) :
    Follows P ss E post' back' (e >>= f) (u >>= g) :=
  h.bindBack hf fun _ _ _ => False.elim

theorem mapStop {f : Stop → Stop} (h : Follows P ss E post back e u) (hf : ∀ s, E s → E' (f s)) :
    Follows P ss E' post back (Recorded.mapStop f e) (Unwinding.mapStop f u) := by
  intro m hm
  obtain ⟨ts, hgrows, hmachine, hclosed, hmeets, hhistory⟩ := h m hm
  refine ⟨ts, hgrows, hmachine, hclosed, ?_, hhistory⟩
  change Meets E' _ _ ((e m).1.1.mapError f) ((u m).1.mapError (Exit.mapStop f))
  generalize (e m).1.1 = x at hmeets ⊢
  generalize (u m).1 = y at hmeets ⊢
  cases hmeets with
  | value h => exact .value h
  | stop h => exact .stop (hf _ h)
  | back h => exact .back h

theorem asCall (h : Follows P ss E post back e u) (limit : Int)
    (hlimit : E (.error (.callDepth limit) none)) :
    Follows P ss E post back (Recorded.asCall limit e) (Unwinding.asCall limit u) := by
  intro m hm
  by_cases hle : limit ≤ m.depth
  · rw [Recorded.asCall_of_le hle, Unwinding.asCall_of_le hle]
    exact ⟨ss, .refl, rfl, hm, .stop hlimit, List.forall_mem_nil _⟩
  · have hlt := Int.not_le.mp hle
    rw [Recorded.asCall_of_lt hlt, Unwinding.asCall_of_lt hlt]
    obtain ⟨ts, hgrows, hmachine, hclosed, hmeets, hhistory⟩ :=
      h { m with depth := m.depth + 1 } (hm.of_store rfl)
    exact ⟨ts, hgrows, by rw [hmachine], hclosed.of_store rfl, hmeets, hhistory⟩

theorem catching {post : List Scope → Value → Prop} {e : Recorded Value} {u : Unwinding Value}
    (h : Follows P ss E post (fun ts v a => a = v ∧ post ts v) e u) :
    Follows P ss E post noBack e (Unwinding.catching u) := by
  intro m hm
  obtain ⟨ts, hgrows, hmachine, hclosed, hmeets, hhistory⟩ := h m hm
  refine ⟨ts, hgrows, ?_⟩
  rcases hx : e m with ⟨⟨x, n⟩, notes⟩
  rcases hy : u m with ⟨y, k⟩
  rw [hx] at hmachine hclosed hmeets hhistory
  rw [hy] at hmachine hmeets
  obtain rfl : k = n := hmachine
  cases hmeets with
  | value h =>
    rw [Unwinding.catching_ok hy]
    exact ⟨rfl, hclosed, .value h, hhistory⟩
  | stop h =>
    rw [Unwinding.catching_stop hy]
    exact ⟨rfl, hclosed, .stop h, hhistory⟩
  | back h =>
    obtain ⟨rfl, hv⟩ := h
    rw [Unwinding.catching_returning hy]
    exact ⟨rfl, hclosed, .value hv, hhistory⟩

theorem repeatUntil {post : List Scope → Value → Prop} {turn : Recorded (Option Value)}
    {turn' : Unwinding (Option Value)} {back : List Scope → Value → Value → Prop} (hE : E .endless)
    (h : ∀ ts, Grows ss ts → Follows P ts E (fun us r => ∀ v, r = some v → post us v)
      (fun us v r => ∃ a, r = some a ∧ back us v a) turn turn') (n : Nat) :
    Follows P ss E post back (Recorded.repeatUntil turn n) (Unwinding.repeatUntil turn' n) := by
  induction n generalizing ss with
  | zero => exact .act (.throw hE)
  | succ n ih =>
    apply (h ss .refl).bindBack
    · intro ts r hgrows hr
      cases r with
      | none => exact ih fun us hus => h us (hgrows.trans hus)
      | some v => exact .pure (hr v rfl)
    · rintro ts v r ⟨a, rfl, ha⟩
      exact ⟨a, rfl, ha⟩

end Follows

end Scriptlet
