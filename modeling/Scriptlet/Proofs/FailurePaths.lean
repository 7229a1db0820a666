import Mathlib.Data.List.Chain
import Scriptlet.Proofs.History
import Scriptlet.Proofs.TreeShape

/-!
What a history says of a failure. The nodes under evaluation when it came up are those that come to no
value, the innermost first, and they end the history; each is evaluated by the next one. The place of
an error is that of the first of them that has one.
-/

namespace Scriptlet

def Note.failure? : Note → Option (Node × Stop)
  | .evaluated n _ (.error s) _ => some (n, s)
  | _ => none

def failures (h : List Note) : List (Node × Stop) :=
  h.filterMap Note.failure?

namespace Node

def condition? : Node → Option Node
  | .conditional _ c _ _ | .loop _ c _ => some c
  | _ => none

def GivesFunction (h : List Note) (callee : Node) (d : Definition) : Prop :=
  ∃ i closure scope after, Note.evaluated callee scope (.ok (.function i d closure)) after ∈ h

/-- The node `outer` evaluates the node `inner` itself: as a part of it or, if it is a call, as a
statement in the body of the function that it calls. -/
def Evaluates (h : List Note) (inner outer : Node) : Prop :=
  match outer with
  | .call _ callee args =>
    inner = callee ∨ inner ∈ args ∨ ∃ d, callee.GivesFunction h d ∧ inner ∈ d.body
  | .function _ | .declareFunction .. => False
  | _ => inner ∈ outer.parts

theorem Evaluates.mono {h h' : List Note} {inner outer : Node} (hh : h ⊆ h')
    (he : Evaluates h inner outer) : Evaluates h' inner outer := by
  cases outer with
  | call =>
    obtain he | he | ⟨d, ⟨i, closure, scope, after, hd⟩, hin⟩ := he
    · exact .inl he
    · exact .inr (.inl he)
    · exact .inr (.inr ⟨d, ⟨i, closure, scope, after, hh hd⟩, hin⟩)
  | _ => exact he

section

variable {h : List Note} {pos : Option Position} {callee : Node} {args : List Node}

theorem evaluates_callee : callee.Evaluates h (.call pos callee args) :=
  .inl rfl

theorem evaluates_arg {n : Node} (hn : n ∈ args) : n.Evaluates h (.call pos callee args) :=
  .inr (.inl hn)

theorem evaluates_body {d : Definition} {n : Node} (hd : callee.GivesFunction h d)
    (hn : n ∈ d.body) : n.Evaluates h (.call pos callee args) :=
  .inr (.inr ⟨d, hd, hn⟩)

end

end Node

namespace RuntimeFault

def place? : RuntimeFault → Node → Option Position
  | .condition _, n => n.condition?.bind Node.pos
  | _, _ => none

def blamed (fault : RuntimeFault) (path : List Node) : Option Position :=
  (path.head?.bind fault.place?).or (path.findSome? Node.pos)

theorem blamed_singleton (fault : RuntimeFault) (n : Node) :
    fault.blamed [n] = (fault.place? n).or n.pos := by
  cases h : n.pos <;> simp [blamed, h]

theorem blamed_concat (fault : RuntimeFault) {path : List Node} (hpath : path ≠ []) (n : Node) :
    fault.blamed (path ++ [n]) = (fault.blamed path).or n.pos := by
  have hfind : [n].findSome? Node.pos = n.pos := by
    cases h : n.pos <;> simp [h]
  rw [blamed, blamed, List.head?_append_of_ne_nil _ hpath, List.findSome?_append, hfind,
    Option.or_assoc]

end RuntimeFault

def Stop.Own (n : Node) (s : Stop) : Prop :=
  ∀ fault pos, s = .error fault pos →
    fault ≠ .recursion ∧ (∀ kind, fault = .condition kind → n.condition?.isSome) ∧
      pos = fault.place? n

def Stop.Bare (s : Stop) : Prop :=
  ∀ fault pos, s = .error fault pos →
    fault ≠ .recursion ∧ (∀ kind, fault ≠ .condition kind) ∧ pos = none

theorem Stop.Bare.own {s : Stop} (h : s.Bare) (n : Node) : s.Own n := by
  intro fault pos hs
  obtain ⟨hrecursion, hcondition, rfl⟩ := h fault pos hs
  refine ⟨hrecursion, fun kind heq => absurd heq (hcondition kind), ?_⟩
  cases fault with
  | condition kind => exact absurd rfl (hcondition kind)
  | _ => rfl

theorem Stop.of_locate {s : Stop} {p pos : Option Position} {fault : RuntimeFault}
    (h : s.locate p = .error fault pos) : ∃ q, s = .error fault q ∧ pos = q.or p := by
  cases s with
  | error f q =>
    cases q with
    | none =>
      cases h
      exact ⟨none, rfl, rfl⟩
    | some q =>
      cases h
      exact ⟨some q, rfl, rfl⟩
  | _ => cases h

inductive Descent (h : List Note) : List (Node × Stop) → Node → Stop → Prop
  | own {n : Node} {s : Stop} (hs : s.Own n) : Descent h [(n, s.locate n.pos)] n (s.locate n.pos)
  | outer {path : List (Node × Stop)} {inner n : Node} {s : Stop} (hd : Descent h path inner s)
      (hn : inner.Evaluates h n) : Descent h (path ++ [(n, s.locate n.pos)]) n (s.locate n.pos)

namespace Descent

variable {h h' : List Note} {path : List (Node × Stop)} {n : Node} {s : Stop}

theorem mono (hd : Descent h path n s) (hh : h ⊆ h') : Descent h' path n s := by
  induction hd with
  | own hs => exact .own hs
  | outer _ hn ih => exact .outer ih (hn.mono hh)

theorem getLast? (hd : Descent h path n s) : path.getLast? = some (n, s) := by
  cases hd with
  | own => rfl
  | outer => exact List.getLast?_concat

theorem ne_nil (hd : Descent h path n s) : path ≠ [] := by
  cases hd <;> simp

theorem isChain (hd : Descent h path n s) : (path.map Prod.fst).IsChain (Node.Evaluates h) := by
  induction hd with
  | own => exact List.isChain_singleton _
  | outer hd hn ih =>
    rw [List.map_append]
    refine List.isChain_append.mpr ⟨ih, List.isChain_singleton _, ?_⟩
    rw [List.getLast?_map, hd.getLast?]
    rintro _ ⟨⟩ _ ⟨⟩
    exact hn

theorem blamed_of {fault : RuntimeFault} {pos : Option Position} (hd : Descent h path n s)
    (hs : s = .error fault pos) (hfront : ∀ front m t back, path = front ++ (m, t) :: back →
      t = .error fault (fault.blamed (front.map Prod.fst ++ [m]))) :
    pos = fault.blamed (path.map Prod.fst) := by
  obtain ⟨front, rfl⟩ := List.getLast?_eq_some_iff.mp hd.getLast?
  have hlast := hs.symm.trans (hfront front n s [] rfl)
  rw [List.map_append]
  exact (Stop.error.inj hlast).2

theorem blames (hd : Descent h path n s) {fault : RuntimeFault} {pos : Option Position}
    (hs : s = .error fault pos) :
    fault ≠ .recursion ∧ ∀ front m t back, path = front ++ (m, t) :: back →
      t = .error fault (fault.blamed (front.map Prod.fst ++ [m])) := by
  induction hd generalizing pos with
  | @own n s hown =>
    obtain ⟨p, rfl, rfl⟩ := Stop.of_locate hs
    obtain ⟨hrecursion, -, rfl⟩ := hown fault p rfl
    refine ⟨hrecursion, fun front m t back hpath => ?_⟩
    cases front with
    | nil =>
      cases hpath
      rw [hs, List.map_nil, List.nil_append, RuntimeFault.blamed_singleton]
    | cons => simp at hpath
  | @outer path inner n s hd hn ih =>
    obtain ⟨p, rfl, rfl⟩ := Stop.of_locate hs
    obtain ⟨hrecursion, hfront⟩ := ih rfl
    refine ⟨hrecursion, fun front m t back hpath => ?_⟩
    rcases List.eq_nil_or_concat back with rfl | ⟨back, last, rfl⟩
    · obtain ⟨rfl, hlast⟩ := List.append_inj' hpath rfl
      cases hlast
      have hne : path.map Prod.fst ≠ [] := fun hnil => hd.ne_nil (List.map_eq_nil_iff.mp hnil)
      rw [hs, RuntimeFault.blamed_concat fault hne, ← hd.blamed_of rfl hfront]
    · rw [List.concat_eq_append, ← List.cons_append, ← List.append_assoc] at hpath
      exact hfront front m t back (List.append_inj' hpath rfl).1

theorem condition (hd : Descent h path n s) {kind : ValueKind} {pos : Option Position}
    (hs : s = .error (.condition kind) pos) :
    ((path.head?.map Prod.fst).bind Node.condition?).isSome := by
  induction hd generalizing pos with
  | own hown =>
    obtain ⟨p, rfl, -⟩ := Stop.of_locate hs
    exact (hown _ p rfl).2.1 kind rfl
  | outer hd hn ih =>
    obtain ⟨p, rfl, -⟩ := Stop.of_locate hs
    rw [List.head?_append_of_ne_nil _ hd.ne_nil]
    exact ih rfl

end Descent

def Unfailing (h : List Note) : Prop :=
  ∀ note ∈ h, note.failure? = none

def Unwound (h : List Note) (path : List (Node × Stop)) : Prop :=
  ∃ past falls, h = past ++ falls ∧ Unfailing past ∧ falls.map Note.failure? = path.map some

theorem Unfailing.append {h h' : List Note} (hh : Unfailing h) (hh' : Unfailing h') :
    Unfailing (h ++ h') :=
  List.forall_mem_append.mpr ⟨hh, hh'⟩

theorem Unfailing.unwound {h : List Note} (hh : Unfailing h) : Unwound h [] :=
  ⟨h, [], (List.append_nil h).symm, hh, rfl⟩

theorem Unwound.prepend {h h' : List Note} {path : List (Node × Stop)} (hh' : Unwound h' path)
    (hh : Unfailing h) : Unwound (h ++ h') path := by
  obtain ⟨past, falls, rfl, hpast, hfalls⟩ := hh'
  exact ⟨h ++ past, falls, (List.append_assoc _ _ _).symm, hh.append hpast, hfalls⟩

theorem Unwound.concat {h : List Note} {path : List (Node × Stop)} (hh : Unwound h path)
    {note : Note} {x : Node × Stop} (hnote : note.failure? = some x) :
    Unwound (h ++ [note]) (path ++ [x]) := by
  obtain ⟨past, falls, rfl, hpast, hfalls⟩ := hh
  refine ⟨past, falls ++ [note], List.append_assoc _ _ _, hpast, ?_⟩
  simp [hfalls, hnote]

theorem Unwound.failures {h : List Note} {path : List (Node × Stop)} (hh : Unwound h path) :
    failures h = path := by
  obtain ⟨past, falls, rfl, hpast, hfalls⟩ := hh
  have hnone : past.filterMap Note.failure? = [] := List.filterMap_eq_nil_iff.mpr hpast
  have hsome : falls.filterMap Note.failure? = (falls.map Note.failure?).filterMap id := by
    rw [List.filterMap_map, Function.id_comp]
  rw [Scriptlet.failures, List.filterMap_append, hnone, hsome, hfalls, List.filterMap_map,
    Function.id_comp, List.filterMap_some, List.nil_append]

section

variable {α β : Type} {recur : Node → Scope → Recorded Value} {h : List Note} {n : Node}

inductive Raised (h : List Note) (n : Node) : List (Node × Stop) → Stop → Prop
  | own {s : Stop} (hs : s.Own n) : Raised h n [] s
  | inner {path : List (Node × Stop)} {inner : Node} {s : Stop} (hd : Descent h path inner s)
      (hn : inner.Evaluates h n) : Raised h n path s

theorem Raised.mono {h' : List Note} {path : List (Node × Stop)} {s : Stop} (hr : Raised h n path s)
    (hh : h ⊆ h') : Raised h' n path s := by
  cases hr with
  | own hs => exact .own hs
  | inner hd hn => exact .inner (hd.mono hh) (hn.mono hh)

structure BlamesIn (h : List Note) (n : Node) (x : (Except Stop α × Machine) × List Note) :
    Prop where
  value : ∀ a, x.1.1 = .ok a → Unfailing x.2
  stop : ∀ s, x.1.1 = .error s → ∃ path, Unwound x.2 path ∧ Raised (h ++ x.2) n path s

def Blames (h : List Note) (n : Node) (e : Recorded α) : Prop :=
  ∀ m, BlamesIn h n (e m)

structure BlamesNode (k : Node) (scope : Scope) (x : (Except Stop Value × Machine) × List Note) :
    Prop where
  value : ∀ v, x.1.1 = .ok v → Unfailing x.2 ∧ ∃ after, .evaluated k scope (.ok v) after ∈ x.2
  stop : ∀ s, x.1.1 = .error s →
    s = .exhausted ∧ Unfailing x.2 ∨ ∃ path, Unwound x.2 path ∧ Descent x.2 path k s

def BlamesNodes (recur : Node → Scope → Recorded Value) : Prop :=
  ∀ k scope m, BlamesNode k scope (recur k scope m)

namespace Blames

variable {e : Recorded α}

theorem pure (a : α) : Blames h n (pure a : Recorded α) :=
  fun _ => ⟨fun _ _ => List.forall_mem_nil _, nofun⟩

theorem bind {f : α → Recorded β} (he : Blames h n e)
    (hf : ∀ m a, (e m).1.1 = .ok a → Blames (h ++ (e m).2) n (f a)) : Blames h n (e >>= f) := by
  intro m
  rw [Recorded.bind_apply]
  have hem := he m
  have hfm := hf m
  generalize e m = x at hem hfm
  obtain ⟨⟨s | a, k⟩, past⟩ := x
  · refine ⟨nofun, fun t ht => ?_⟩
    obtain rfl := Except.error.inj ht
    exact hem.stop s rfl
  · have hpast := hem.value a rfl
    obtain ⟨hvalue, hstop⟩ := hfm a rfl k
    refine ⟨fun b hb => hpast.append (hvalue b hb), fun s hs => ?_⟩
    obtain ⟨path, hunwound, hraised⟩ := hstop s hs
    exact ⟨path, Unwound.prepend hunwound hpast, by rwa [← List.append_assoc]⟩

theorem act {e : Evaluation α} (he : ∀ m s, (e m).1 = .error s → s.Own n) :
    Blames h n (Recorded.act e) := by
  intro m
  have hunfailing : Unfailing [.action m (e m).2] := List.forall_mem_singleton.mpr rfl
  exact ⟨fun _ _ => hunfailing, fun s hs => ⟨[], hunfailing.unwound, .own (he m s hs)⟩⟩

theorem asCall (he : Blames h n e) (limit : Int) : Blames h n (Recorded.asCall limit e) := by
  intro m
  by_cases hm : limit ≤ m.depth
  · rw [Recorded.asCall_of_le hm]
    refine ⟨nofun, fun s hs => ⟨[], Unfailing.unwound (List.forall_mem_nil _), .own ?_⟩⟩
    obtain rfl := Except.error.inj hs
    rintro _ _ ⟨⟩
    exact ⟨nofun, nofun, rfl⟩
  · rw [Recorded.asCall_of_lt (Int.not_le.mp hm)]
    obtain ⟨hvalue, hstop⟩ := he { m with depth := m.depth + 1 }
    exact ⟨hvalue, hstop⟩

theorem repeatUntil {turn : Recorded (Option Value)} (hturn : ∀ h, Blames h n turn) (k : Nat) :
    Blames h n (Recorded.repeatUntil turn k) := by
  induction k generalizing h with
  | zero => exact act fun _ _ hs _ _ hs' => nomatch hs'.symm.trans (Except.error.inj hs).symm
  | succ k ih =>
    refine (hturn h).bind fun m r _ => ?_
    cases r with
    | none => exact ih
    | some v => exact pure v

end Blames

end

end Scriptlet
