import Scriptlet.Proofs.History
import Scriptlet.Proofs.ScopeTree

/-!
A ledger of the functions that evaluations have made, in turn. Each has a number that none of those
before it has, and every function that turns up in a frame or as what a node comes to stands in the
ledger by then.
-/

namespace Scriptlet

def Note.makes? : Note → Option Value
  | evaluated (.function _) _ (.ok v) _ => some v
  | evaluated (.declareFunction _ d) scope (.ok _) after => d.name.bind (after.store.get? scope)
  | _ => none

def Note.Makes : Note → Prop
  | evaluated (.function d) scope (.ok v) _ => ∃ i, v = .function i d scope
  | evaluated (.declareFunction _ d) scope (.ok _) after =>
    ∃ x i, d.name = some x ∧ after.store.get? scope x = some (.function i d scope)
  | _ => True

/-- A value that is there: it is bound in some frame in front of an action or behind a node, or the
node has come to it, or returns it. -/
def Note.Finds (v : Value) : Note → Prop
  | action before _ => before.Binds v
  | evaluated _ _ result after =>
    after.Binds v ∨ result = .ok v ∨ result = .ok (.returned v)

def functionsMade (h : List Note) : List Value :=
  h.filterMap Note.makes?

theorem functionsMade_append (h h' : List Note) :
    functionsMade (h ++ h') = functionsMade h ++ functionsMade h' :=
  List.filterMap_append

def Traced : (vs : List Value) → List Note → Prop
  | _, [] => True
  | vs, note :: h =>
    (note.Makes ∧ ∀ i d scope, note.Finds (.function i d scope) →
      .function i d scope ∈ vs ++ note.makes?.toList) ∧ Traced (vs ++ note.makes?.toList) h

theorem Traced.append {vs : List Value} {h h' : List Note} (hh : Traced vs h)
    (hh' : Traced (vs ++ functionsMade h) h') : Traced vs (h ++ h') := by
  induction h generalizing vs with
  | nil => simpa [functionsMade] using hh'
  | cons note h ih =>
    refine ⟨hh.1, ih hh.2 ?_⟩
    have hmade : functionsMade (note :: h) = note.makes?.toList ++ functionsMade h := by
      unfold functionsMade
      cases hnote : note.makes? <;> simp [hnote]
    rwa [hmade, ← List.append_assoc] at hh'

structure Ledger where
  made : List Value
  frames : Nat

namespace Ledger

def after {α : Type} (w : Ledger) (x : (Except Stop α × Machine) × List Note) : Ledger :=
  ⟨w.made ++ functionsMade x.2, x.1.2.store.fresh⟩

structure Le (w w' : Ledger) : Prop where
  made : w.made <+: w'.made
  frames : w.frames ≤ w'.frames

def Sees (w : Ledger) (scope : Scope) : Prop :=
  ∃ a ∈ scope.head?, a < w.frames

variable {w w' w'' : Ledger}

theorem Le.refl (w : Ledger) : w.Le w :=
  ⟨List.prefix_refl _, Nat.le_refl _⟩

theorem Le.trans (h : w.Le w') (h' : w'.Le w'') : w.Le w'' :=
  ⟨h.made.trans h'.made, Nat.le_trans h.frames h'.frames⟩

theorem Sees.mono {scope : Scope} (h : w.Sees scope) (hw : w.Le w') : w'.Sees scope := by
  obtain ⟨a, ha, hlt⟩ := h
  exact ⟨a, ha, Nat.lt_of_lt_of_le hlt hw.frames⟩

end Ledger

def Node.Proper (n : Node) : Prop :=
  ∀ k : Node, k.Within n →
    match k with
    | .literal _ v => v.IsLiteral
    | .declareFunction _ d => d.name.isSome
    | _ => True

theorem Node.Proper.part {n k : Node} (h : n.Proper) (hk : k ∈ n.parts) : k.Proper :=
  fun j hj => h j (.part hk hj)

theorem Formed.proper {P : Token → Prop} {f : Bool} {r : Role} {n : Node} (h : Formed P f r n) :
    n.Proper := by
  intro k hk
  obtain ⟨f', r', hformed⟩ := h.within hk
  cases hformed with
  | literal _ hv => exact hv
  | declareFunction _ _ hname => exact Option.isSome_iff_exists.mpr ⟨_, hname⟩
  | _ => trivial

def Value.From (w : Ledger) : Value → Prop
  | .function i d scope =>
    .function i d scope ∈ w.made ∧ w.Sees scope ∧ ∀ k ∈ d.body, k.Proper
  | .returned v => v.From w
  | _ => True

theorem Value.From.mono {w w' : Ledger} {v : Value} (h : v.From w) (hw : w.Le w') : v.From w' := by
  fun_induction Value.From w v with
  | case1 i d scope => exact ⟨hw.made.subset h.1, h.2.1.mono hw, h.2.2⟩
  | case2 v ih => exact ih h
  | case3 v hfunction hreturned =>
    cases v
    case function i d scope => exact (hfunction i d scope rfl).elim
    case returned v => exact (hreturned v rfl).elim
    all_goals trivial

def Value.functionNumber? : Value → Option Nat
  | .function i _ _ => some i
  | _ => none

def Value.Older (v v' : Value) : Prop :=
  ∃ i ∈ v.functionNumber?, ∃ j ∈ v'.functionNumber?, i < j

structure Machine.Booked (w : Ledger) (m : Machine) : Prop where
  frames : w.frames = m.store.fresh
  bound : ∀ v, m.Binds v → v.From w
  ordered : w.made.Pairwise Value.Older
  numbered : ∀ v ∈ w.made, ∃ i ∈ v.functionNumber?, i < m.made

namespace Machine.Booked

variable {w : Ledger} {m n : Machine}

theorem of_store (h : m.Booked w) (hstore : n.store = m.store) (hmade : m.made ≤ n.made) :
    n.Booked w := by
  obtain ⟨hframes, hbound, hordered, hnumbered⟩ := h
  unfold Machine.Binds at hbound
  rw [← hstore] at hframes hbound
  refine ⟨hframes, hbound, hordered, fun v hv => ?_⟩
  obtain ⟨i, hi, hlt⟩ := hnumbered v hv
  exact ⟨i, hi, Nat.lt_of_lt_of_le hlt hmade⟩

theorem get? (h : m.Booked w) {scope : Scope} {x : String} {v : Value}
    (hv : m.store.get? scope x = some v) : v.From w := by
  obtain ⟨a, -, hget⟩ := Option.bind_eq_some_iff.mp hv
  exact h.bound v ⟨a, x, Frame.mem_of_get? hget⟩

theorem update (h : m.Booked w) (a : Address) (x : String) {v : Value} (hv : v.From w) :
    { m with store := m.store.update a x v }.Booked w := by
  by_cases ha : a < m.store.fresh
  · refine ⟨h.frames.trans (Store.fresh_update _ _ _ _).symm, ?_, h.ordered, h.numbered⟩
    rintro u ⟨b, y, hu⟩
    simp only [Store.frame_update m.store a b x v ha] at hu
    split at hu
    · rcases Frame.mem_of_mem_set hu with rfl | hu
      · exact hv
      · exact h.bound u ⟨b, y, hu⟩
    · exact h.bound u ⟨b, y, hu⟩
  · rw [Store.update_of_fresh_le _ x v (Nat.not_lt.mp ha)]
    exact h

theorem define (h : m.Booked w) (scope : Scope) (x : String) {v : Value} (hv : v.From w) :
    { m with store := m.store.define scope x v }.Booked w := by
  cases scope with
  | nil => exact h
  | cons a scope => exact h.update a x hv

theorem push (h : m.Booked w) {f : Frame} (hf : ∀ b ∈ f, ∀ w, b.2.From w) :
    { m with store := m.store.push f }.Booked ⟨w.made, w.frames + 1⟩ := by
  have hle : w.Le ⟨w.made, w.frames + 1⟩ := ⟨List.prefix_refl _, Nat.le_succ _⟩
  refine ⟨?_, ?_, h.ordered, h.numbered⟩
  · exact (congrArg (· + 1) h.frames).trans (Store.fresh_push _ _).symm
  · rintro v ⟨a, x, hv⟩
    simp only [Store.frame_push] at hv
    split at hv
    · exact hf (x, v) hv _
    · exact (h.bound v ⟨a, x, hv⟩).mono hle

theorem make (h : m.Booked w) {d : Definition} {scope : Scope} (he : w.Sees scope)
    (hbody : ∀ k ∈ d.body, k.Proper) :
    let v : Value := .function m.made d scope
    let w' : Ledger := ⟨w.made ++ [v], w.frames⟩
    w.Le w' ∧ v.From w' ∧ { m with made := m.made + 1 }.Booked w' := by
  intro v w'
  have hle : w.Le w' := ⟨List.prefix_append _ _, Nat.le_refl _⟩
  refine ⟨hle, ⟨List.mem_append_right _ (List.mem_singleton_self _), he, hbody⟩, h.frames,
    fun u hu => (h.bound u hu).mono hle, ?_, ?_⟩
  · refine List.pairwise_append.mpr ⟨h.ordered, List.pairwise_singleton _ _, fun u hu u' hu' => ?_⟩
    obtain rfl := List.mem_singleton.mp hu'
    obtain ⟨i, hi, hlt⟩ := h.numbered u hu
    exact ⟨i, hi, m.made, rfl, hlt⟩
  · intro u hu
    rcases List.mem_append.mp hu with hu | hu
    · obtain ⟨i, hi, hlt⟩ := h.numbered u hu
      exact ⟨i, hi, Nat.lt_succ_of_lt hlt⟩
    · obtain rfl := List.mem_singleton.mp hu
      exact ⟨m.made, rfl, Nat.lt_succ_self _⟩

theorem openRoot (h : m.Booked w) :
    m.openRoot.2.Booked ⟨w.made, w.frames + 1⟩ ∧
      Ledger.Sees ⟨w.made, w.frames + 1⟩ m.openRoot.1 := by
  refine ⟨h.push fun b hb _ => ?_, m.store.fresh, rfl, ?_⟩
  · obtain ⟨builtin, -, rfl⟩ := List.mem_map.mp hb
    trivial
  · exact Nat.lt_succ_of_le (Nat.le_of_eq h.frames.symm)

theorem initial (clock : Clock) : (Machine.initial clock).Booked ⟨[], 0⟩ := by
  refine ⟨rfl, ?_, .nil, List.forall_mem_nil _⟩
  rintro v ⟨a, x, hv⟩
  rw [Store.frame_of_fresh_le _ (Nat.zero_le a)] at hv
  cases hv

end Machine.Booked

structure Books {α : Type} (w : Ledger) (post : Ledger → α → Prop)
    (x : (Except Stop α × Machine) × List Note) : Prop where
  frames : w.frames ≤ x.1.2.store.fresh
  booked : x.1.2.Booked (w.after x)
  value : ∀ a, x.1.1 = .ok a → post (w.after x) a
  traced : Traced w.made x.2

def KeepsBooks {α : Type} (w : Ledger) (post : Ledger → α → Prop) (e : Recorded α) : Prop :=
  ∀ m, m.Booked w → Books w post (e m)

section

variable {α β : Type} {w : Ledger} {post : Ledger → α → Prop} {e : Recorded α}

theorem Books.le {x : (Except Stop α × Machine) × List Note} (h : Books w post x) :
    w.Le (w.after x) :=
  ⟨List.prefix_append _ _, h.frames⟩

theorem books_nil {m : Machine} (hm : m.Booked w) {r : Except Stop α}
    (hr : ∀ a, r = .ok a → post w a) : Books w post ((r, m), []) := by
  have hafter : w.after ((r, m), []) = w := by
    simp [Ledger.after, functionsMade, ← hm.frames]
  refine ⟨Nat.le_of_eq hm.frames, ?_, ?_, trivial⟩
  all_goals rwa [hafter]

namespace KeepsBooks

theorem pure {a : α} (h : post w a) : KeepsBooks w post (pure a) :=
  fun _ hm => books_nil hm fun _ hb => Except.ok.inj hb ▸ h

theorem bind {post' : Ledger → β → Prop} {f : α → Recorded β} (he : KeepsBooks w post e)
    (hf : ∀ ws a, w.Le ws → post ws a → KeepsBooks ws post' (f a)) :
    KeepsBooks w post' (e >>= f) := by
  intro m hm
  rw [Recorded.bind_apply]
  have hem := he m hm
  generalize e m = x at hem
  obtain ⟨⟨s | a, k⟩, h⟩ := x
  · exact ⟨hem.frames, hem.booked, nofun, hem.traced⟩
  · obtain ⟨hframes, hbooked, hvalue, htraced⟩ := hf _ a hem.le (hem.value a rfl) k hem.booked
    have hafter : (w.after ((.ok a, k), h)).after (f a k) =
        w.after ((f a k).1, h ++ (f a k).2) := by
      simp [Ledger.after, functionsMade_append]
    rw [hafter] at hbooked hvalue
    exact ⟨Nat.le_trans hem.frames hframes, hbooked, hvalue, hem.traced.append htraced⟩

theorem act {e : Evaluation α}
    (h : ∀ m, m.Booked w → ∃ n, w.frames ≤ n ∧ (e m).2.Booked ⟨w.made, n⟩ ∧
      ∀ a, (e m).1 = .ok a → post ⟨w.made, n⟩ a) : KeepsBooks w post (Recorded.act e) := by
  intro m hm
  obtain ⟨n, hle, hbooked, hvalue⟩ := h m hm
  have hafter : w.after (Recorded.act e m) = ⟨w.made, n⟩ := by
    have hframes : n = (e m).2.store.fresh := hbooked.frames
    simp [Ledger.after, functionsMade, Recorded.act_apply, Note.makes?, hframes]
  refine ⟨Nat.le_trans hle (Nat.le_of_eq hbooked.frames), hafter.symm ▸ hbooked,
    fun a ha => hafter.symm ▸ hvalue a ha, ⟨trivial, fun i d scope hfound => ?_⟩, trivial⟩
  exact List.mem_append_left _ (hm.bound _ hfound).1

theorem of_store {e : Evaluation α} (hstore : ∀ m, (e m).2.store = m.store)
    (hmade : ∀ m, m.made ≤ (e m).2.made)
    (hvalue : ∀ m a, m.Booked w → (e m).1 = .ok a → post w a) :
    KeepsBooks w post (Recorded.act e) :=
  act fun m hm => ⟨w.frames, Nat.le_refl _, hm.of_store (hstore m) (hmade m), fun a => hvalue m a hm⟩

theorem mapStop (h : KeepsBooks w post e) (f : Stop → Stop) :
    KeepsBooks w post (Recorded.mapStop f e) := by
  intro m hm
  obtain ⟨hframes, hbooked, hvalue, htraced⟩ := h m hm
  refine ⟨hframes, hbooked, fun a ha => hvalue a ?_, htraced⟩
  change (e m).1.1.mapError f = .ok a at ha
  cases hr : (e m).1.1 with
  | error s =>
    rw [hr] at ha
    cases ha
  | ok b =>
    rw [hr] at ha
    exact ha

theorem asCall (h : KeepsBooks w post e) (limit : Int) :
    KeepsBooks w post (Recorded.asCall limit e) := by
  intro m hm
  by_cases hle : limit ≤ m.depth
  · rw [Recorded.asCall_of_le hle]
    exact books_nil hm nofun
  · rw [Recorded.asCall_of_lt (Int.not_le.mp hle)]
    obtain ⟨hframes, hbooked, hvalue, htraced⟩ :=
      h { m with depth := m.depth + 1 } (hm.of_store rfl (Nat.le_refl _))
    exact ⟨hframes, hbooked.of_store rfl (Nat.le_refl _), hvalue, htraced⟩

theorem repeatUntil {turn : Recorded (Option Value)}
    (h : ∀ ws, w.Le ws → KeepsBooks ws (fun us r => ∀ v, r = some v → v.From us) turn) (n : Nat) :
    KeepsBooks w (fun us v => v.From us) (Recorded.repeatUntil turn n) := by
  induction n generalizing w with
  | zero => exact .of_store (fun _ => rfl) (fun _ => Nat.le_refl _) fun _ _ _ => nofun
  | succ n ih =>
    refine (h w (.refl w)).bind fun ws r hws hr => ?_
    cases r with
    | none => exact ih fun us hus => h us (hws.trans hus)
    | some v => exact .pure (hr v rfl)

end KeepsBooks

end

end Scriptlet
