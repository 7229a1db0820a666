import Scriptlet.Proofs.Sessions

namespace Scriptlet

def stores (history : List Note) : List Store :=
  history.flatMap fun
    | .action before after => [before.store, after.store]
    | .evaluated _ _ _ after => [after.store]

def Growing (m : Machine) (h : List Note) (n : Machine) : Prop :=
  (m.store :: (stores h ++ [n.store])).Pairwise Store.Extends

theorem stores_append (h h' : List Note) : stores (h ++ h') = stores h ++ stores h' :=
  List.flatMap_append

namespace Growing

variable {m n k : Machine} {h h' : List Note}

theorem refl (m : Machine) : Growing m [] m :=
  List.pairwise_pair.mpr (.refl m.store)

theorem append (hm : Growing m h n) (hn : Growing n h' k) : Growing m (h ++ h') k := by
  have hfirst : (m.store :: stores h ++ [n.store]).Pairwise Store.Extends := hm
  obtain ⟨hpast, -, hlast⟩ := List.pairwise_append.mp hfirst
  obtain ⟨hnext, hrest⟩ := List.pairwise_cons.mp hn
  unfold Growing
  rw [stores_append, List.append_assoc, ← List.cons_append]
  refine List.pairwise_append.mpr ⟨hpast, hrest, fun s hs t ht => ?_⟩
  exact (hlast s hs n.store (List.mem_singleton_self _)).trans (hnext t ht)

theorem action (h : m.store.Extends n.store) : Growing m [.action m n] n := by
  have hpairs : [m.store, m.store, n.store, n.store].Pairwise Store.Extends := by
    simp [Store.Extends.refl, h]
  exact hpairs

theorem evaluated (node : Node) (scope : Scope) (result : Except Stop Value) (m : Machine) :
    Growing m [.evaluated node scope result m] m := by
  have hpairs : [m.store, m.store, m.store].Pairwise Store.Extends := by
    simp [Store.Extends.refl]
  exact hpairs

end Growing

open Recorded in
theorem simulates_growing (limits : Limits) :
    Simulates (M := Recorded) (N := Evaluation)
      (fun _ e _ => ∀ m, Growing m (e m).2 (e m).1.2) limits limits where
  pure _ m := .refl m
  bind := by
    intro α β e e' f f' he hf m
    have hm := he m
    rw [bind_apply]
    rcases hx : e m with ⟨⟨s | a, n⟩, h⟩
    all_goals rw [hx] at hm
    · exact hm
    · exact hm.append (hf a n)
  act he m := .action (he m).later.store
  relabel _ h := h
  call := by
    intro α e e' h m
    by_cases hm : limits.maxDepth ≤ m.depth
    · change Growing m (asCall limits.maxDepth e m).2 (asCall limits.maxDepth e m).1.2
      rw [asCall_of_le hm]
      exact .refl m
    · change Growing m (asCall limits.maxDepth e m).2 (asCall limits.maxDepth e m).1.2
      rw [asCall_of_lt (Int.not_le.mp hm)]
      exact h { m with depth := m.depth + 1 }
  patience := rfl
  step pos m := .action (Evaluation.later_countStep _ pos m).store
  halt _ m := .action (.refl m.store)

def Value.ScopeIn (ss : List Scope) : Value → Prop
  | .function _ _ scope => scope ∈ ss
  | .returned v => v.ScopeIn ss
  | _ => True

def Machine.ScopesIn (ss : List Scope) (m : Machine) : Prop :=
  m.store.fresh ≤ ss.length ∧ ∀ v, m.Binds v → v.ScopeIn (ss.take m.store.fresh)

def Note.ScopesIn (ss : List Scope) : Note → Prop
  | action before after => before.ScopesIn ss ∧ after.ScopesIn ss
  | evaluated _ scope result after =>
    after.ScopesIn ss ∧ scope ∈ ss.take after.store.fresh ∧
      ∀ v, result = .ok v → v.ScopeIn (ss.take after.store.fresh)

section

variable {P : Token → Prop} {ss : List Scope}

theorem Value.Closed.scopeIn {v : Value} (h : v.Closed P ss) : v.ScopeIn ss := by
  cases v with
  | function i d scope => exact h.1
  | returned v => exact h.elim
  | _ => trivial

theorem Machine.Closed.scopesIn {m : Machine} (h : m.Closed P (ss.take m.store.fresh)) :
    m.ScopesIn ss :=
  ⟨Nat.le_trans (Nat.le_of_eq h.fresh) (List.length_take_le' _ _), fun v hv => (h.values v hv).scopeIn⟩

theorem Note.Closed.scopesIn {note : Note} (h : note.Closed P ss) : note.ScopesIn ss := by
  cases note with
  | action before after => exact ⟨h.1.scopesIn, h.2.scopesIn⟩
  | evaluated node scope result after =>
    obtain ⟨hafter, hscope, f, r, -, hresult⟩ := h
    refine ⟨hafter.scopesIn, hscope, fun v hv => ?_⟩
    have hfits := hresult v hv
    cases v with
    | function i d scope => exact hfits.1
    | returned v => exact hfits.2.2.scopeIn
    | _ => trivial

end

namespace Program

theorem growing_record (limits : Limits) (statements : List Node) (scope : Scope) (m : Machine) :
    Growing m (record limits statements scope m).2 (record limits statements scope m).1.2 := by
  have hnoting (node : Node) (scope : Scope) {e : Recorded Value} {e' : Evaluation Value}
      (h : ∀ m, Growing m (e m).2 (e m).1.2) (m : Machine) :
      Growing m (Recorded.noting node scope e m).2 (Recorded.noting node scope e m).1.2 :=
    (h m).append (.evaluated node scope _ _)
  have hfrom := (simulates_growing limits).recordFrom hnoting rfl scope .nil statements
    { m with steps := 0, depth := 0 }
  rw [record_apply]
  exact (Growing.action (.refl m.store)).append hfrom

theorem growing_recordAll (limits : Limits) (scope : Scope) (ps : List Program) (m : Machine) :
    Growing m (recordAll limits scope ps m).2 (recordAll limits scope ps m).1.2 := by
  induction ps generalizing m with
  | nil => exact .refl m
  | cons p ps ih => exact (growing_record limits p.statements scope m).append (ih _)

/-- Throughout the runs of some programs there is one tree of scopes. Every scope in it is a chain
that descends to the root; whatever is evaluated is evaluated in one of these scopes, and every
function that is bound or comes up as a result was made in one. Names stay bound, so what is in sight
stays in sight. -/
theorem recordAll_scopes (limits : Limits) (clock : Clock) {ps : List Program}
    (hps : ∀ p ∈ ps, p.Parsed) :
    let root := (Machine.initial clock).openRoot
    let recorded := recordAll limits root.1 ps root.2
    recorded.1 = runAll limits root.1 ps root.2 ∧
      (∃ scopes, Opened scopes ∧ (∀ e ∈ scopes, Scope.Chained scopes e) ∧
        ∀ note ∈ recorded.2, note.ScopesIn scopes) ∧
      (root.2.store :: stores recorded.2).Pairwise fun s t =>
        s.Extends t ∧ ∀ scope x, (s.resolve scope x).isSome → (t.resolve scope x).isSome := by
  intro root recorded
  obtain ⟨scopes, hopened, hproceeds⟩ := proceeds limits (List.mem_singleton_self [0])
    (fun p hp => (hps p hp).formed) (closed_openRoot clock)
  refine ⟨recordAll_fst limits [0] ps root.2, ⟨scopes, hopened, Opened.chained hopened,
    fun note hnote => (hproceeds.history note hnote).scopesIn⟩, ?_⟩
  have hgrowing : (root.2.store :: stores recorded.2 ++ [recorded.1.2.store]).Pairwise Store.Extends :=
    growing_recordAll limits [0] ps root.2
  exact (List.pairwise_append.mp hgrowing).1.imp fun h => ⟨h, fun scope x => h.resolve_isSome⟩

theorem recordAll_scopes_returner :
    returner.Parsed ∧ ∃ scopes, Opened scopes ∧
      ∀ note ∈ (recordAll {} [0] [returner] (Machine.initial (0 : Float)).openRoot.2).2,
        note.ScopesIn scopes := by
  have hps : ∀ p ∈ [returner], p.Parsed := List.forall_mem_singleton.mpr parsed_returner
  obtain ⟨-, ⟨scopes, hopened, -, hnotes⟩, -⟩ := recordAll_scopes {} (0 : Float) hps
  exact ⟨parsed_returner, scopes, hopened, hnotes⟩

end Program

end Scriptlet
