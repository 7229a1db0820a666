import Mathlib.Data.List.Find
import Scriptlet.Proofs.MachineGrowth

namespace Scriptlet

inductive ScopeHistory : Nat → Type
  | root : ScopeHistory 1
  | define {k : Nat} (h : ScopeHistory k) (e : Fin k) (x : String) (v : Value) : ScopeHistory k
  | assign {k : Nat} (h : ScopeHistory k) (e : Fin k) (x : String) (v : Value) : ScopeHistory k
  | get {k : Nat} (h : ScopeHistory k) (e : Fin k) (x : String) : ScopeHistory k
  | contains {k : Nat} (h : ScopeHistory k) (e : Fin k) (x : String) : ScopeHistory k
  | child {k : Nat} (h : ScopeHistory k) (e : Fin k) : ScopeHistory (k + 1)

namespace ScopeHistory

def chain : {k : Nat} → ScopeHistory k → Nat → List Nat
  | _, root, _ => [0]
  | _, define h _ _ _, e | _, assign h _ _ _, e | _, get h _ _, e | _, contains h _ _, e => h.chain e
  | k + 1, child h p, e => if e = k then k :: h.chain p else h.chain e

def definitions : {k : Nat} → ScopeHistory k → Nat → List String
  | _, root, _ => []
  | _, define h e x _, s => if s = e then h.definitions s ++ [x] else h.definitions s
  | _, assign h _ _ _, s | _, get h _ _, s | _, contains h _ _, s | _, child h _, s => h.definitions s

def nearest {k : Nat} (h : ScopeHistory k) (e : Nat) (x : String) : Option Nat :=
  (h.chain e).find? fun s => x ∈ h.definitions s

/-- The value that was written last to a name of an environment: by a definition in it, or by an
assignment from where it was the nearest one at that time. -/
def written : {k : Nat} → ScopeHistory k → Nat → String → Option Value
  | _, root, _, _ => none
  | _, define h e x v, s, y => if s = e ∧ y = x then some v else h.written s y
  | _, assign h e x v, s, y => if h.nearest e x = some s ∧ y = x then some v else h.written s y
  | _, get h _ _, s, y | _, contains h _ _, s, y | _, child h _, s, y => h.written s y

end ScopeHistory

structure Environments where
  machine : Machine
  scopes : List Scope

namespace Environments

def scope (w : Environments) (e : Nat) : Scope :=
  w.scopes[e]?.getD []

def own (w : Environments) (e : Nat) : Frame :=
  (w.scope e).head?.elim [] w.machine.store.frame

def after {α : Type} (w : Environments) (e : Evaluation α) : Environments :=
  { w with machine := (e w.machine).2 }

def openChild (w : Environments) (e : Nat) : Environments :=
  match Evaluation.openChild (w.scope e) w.machine with
  | (.ok inner, m) => ⟨m, w.scopes ++ [inner]⟩
  | (.error _, m) => ⟨m, w.scopes⟩

structure Binds (w : Environments) (s : Nat) (x : String) (v : Value) (w' : Environments) : Prop where
  binding : ∀ t < w.scopes.length, ∀ y,
    (w'.own t).get? y = if t = s ∧ y = x then some v else (w.own t).get? y
  others : ∀ t < w.scopes.length, t ≠ s → w'.own t = w.own t
  scopes : w'.scopes = w.scopes
  machine : w'.machine = { w.machine with store := w'.machine.store }
  fresh : w'.machine.store.fresh = w.machine.store.fresh

end Environments

def levelsText : List (List String) → String
  | [] => "<Environment []>"
  | [xs] => s!"<Environment [{level xs}]>"
  | xs :: rest => s!"<Environment [{level xs}] -> {levelsText rest}>"
where
  level (xs : List String) : String := ", ".intercalate xs

namespace ScopeHistory

open Evaluation (define assign lookup)

def run (m : Machine) : {k : Nat} → ScopeHistory k → Environments
  | _, root => ⟨m.openEmpty.2, [m.openEmpty.1]⟩
  | _, .define h e x v => (h.run m).after (Evaluation.define ((h.run m).scope e) x v)
  | _, .assign h e x v => (h.run m).after (Evaluation.assign ((h.run m).scope e) x v)
  | _, get h e x => (h.run m).after (lookup ((h.run m).scope e) x)
  | _, contains h _ _ => h.run m
  | _, child h e => (h.run m).openChild e

section

variable {k : Nat} {e s : Nat} {x y : String} {b : Address} {w : Environments}

theorem chain_eq_cons (h : ScopeHistory k) (he : e < k) : ∃ t, h.chain e = e :: t := by
  induction h with
  | root =>
    obtain rfl : e = 0 := by omega
    exact ⟨[], rfl⟩
  | define h _ _ _ ih | assign h _ _ _ ih | get h _ _ ih | contains h _ _ ih => exact ih he
  | @child k h p ih =>
    by_cases heq : e = k
    · exact ⟨h.chain p, by rw [chain, if_pos heq, heq]⟩
    · rw [chain, if_neg heq]
      exact ih (by omega)

theorem lt_of_mem_chain (h : ScopeHistory k) (he : e < k) (hs : s ∈ h.chain e) : s < k := by
  induction h generalizing e with
  | root =>
    rw [chain, List.mem_singleton] at hs
    omega
  | define h _ _ _ ih | assign h _ _ _ ih | get h _ _ ih | contains h _ _ ih => exact ih he hs
  | @child k h p ih =>
    rw [chain] at hs
    split at hs
    · rcases List.mem_cons.mp hs with rfl | hs
      · exact Nat.lt_succ_self _
      · exact Nat.lt_succ_of_lt (ih p.isLt hs)
    · exact Nat.lt_succ_of_lt (ih (by omega) hs)

theorem definitions_of_le (h : ScopeHistory k) (hs : k ≤ s) : h.definitions s = [] := by
  induction h with
  | root => rfl
  | define h e _ _ ih =>
    rw [definitions, if_neg (by omega)]
    exact ih hs
  | assign h _ _ _ ih | get h _ _ ih | contains h _ _ ih => exact ih hs
  | child h _ ih => exact ih (by omega)

theorem mem_of_nearest {h : ScopeHistory k} (hs : h.nearest e x = some s) :
    s ∈ h.chain e ∧ x ∈ h.definitions s :=
  ⟨List.mem_of_find?_eq_some hs, by simpa using List.find?_some hs⟩

theorem written_of_le (h : ScopeHistory k) (hs : k ≤ s) : h.written s x = none := by
  induction h with
  | root => rfl
  | define h e _ _ ih =>
    rw [written, if_neg (by omega)]
    exact ih hs
  | assign h e y _ ih =>
    rw [written, if_neg]
    · exact ih hs
    · rintro ⟨hnearest, -⟩
      have hlt := h.lt_of_mem_chain e.isLt (mem_of_nearest hnearest).1
      omega
  | get h _ _ ih | contains h _ _ ih => exact ih hs
  | child h _ ih => exact ih (by omega)

end

structure Borne {k : Nat} (h : ScopeHistory k) (b : Address) (w : Environments) : Prop where
  fresh : w.machine.store.fresh = b + k
  length : w.scopes.length = k
  scope : ∀ e < k, w.scope e = (h.chain e).map (b + ·)
  names : ∀ s < k, (w.machine.store.frame (b + s)).names = (h.definitions s).eraseDups
  written : ∀ s < k, ∀ y, (w.machine.store.frame (b + s)).get? y = h.written s y

namespace Borne

variable {k : Nat} {h : ScopeHistory k} {b : Address} {w : Environments} {e s : Nat}

theorem contains_iff (hw : h.Borne b w) (hs : s < k) (x : String) :
    (w.machine.store.frame (b + s)).contains x = true ↔ x ∈ h.definitions s := by
  rw [Frame.contains_iff_mem_names, hw.names s hs, List.mem_eraseDups]

theorem resolve (hw : h.Borne b w) (he : e < k) (x : String) :
    w.machine.store.resolve (w.scope e) x = (h.nearest e x).map (b + ·) := by
  unfold Store.resolve nearest
  rw [hw.scope e he, List.find?_map]
  congr 1
  apply List.find?_congr
  intro s hs
  rw [Bool.eq_iff_iff, decide_eq_true_iff]
  exact hw.contains_iff (h.lt_of_mem_chain he hs) x

theorem own (hw : h.Borne b w) (hs : s < k) : w.own s = w.machine.store.frame (b + s) := by
  obtain ⟨t, ht⟩ := h.chain_eq_cons hs
  unfold Environments.own
  rw [hw.scope s hs, ht]
  rfl

theorem lt_fresh (hw : h.Borne b w) (hs : s < k) : b + s < w.machine.store.fresh := by
  rw [hw.fresh]
  exact Nat.add_lt_add_left hs b

theorem frame_update (hw : h.Borne b w) (hs : s < k) (x : String) (v : Value) (t : Nat) :
    (w.machine.store.update (b + s) x v).frame (b + t) =
      if t = s then (w.machine.store.frame (b + t)).set x v else w.machine.store.frame (b + t) := by
  rw [Store.frame_update _ _ _ x v (hw.lt_fresh hs)]
  simp only [Nat.add_left_cancel_iff]

theorem define_eq (hw : h.Borne b w) (he : e < k) (x : String) (v : Value) :
    Evaluation.define (w.scope e) x v w.machine =
      (.ok (), { w.machine with store := w.machine.store.update (b + e) x v }) := by
  obtain ⟨t, ht⟩ := h.chain_eq_cons he
  rw [hw.scope e he, ht]
  rfl

theorem assign_of_nearest (hw : h.Borne b w) (he : e < k) {x : String} (hs : h.nearest e x = some s)
    (v : Value) :
    Evaluation.assign (w.scope e) x v w.machine =
      (.ok (), { w.machine with store := w.machine.store.update (b + s) x v }) := by
  unfold Evaluation.assign Store.assign?
  rw [hw.resolve he, hs]
  rfl

theorem assign_of_none (hw : h.Borne b w) (he : e < k) {x : String} (hs : h.nearest e x = none)
    (v : Value) :
    Evaluation.assign (w.scope e) x v w.machine =
      (.error (.error (.undefinedName x) none), w.machine) := by
  unfold Evaluation.assign Store.assign?
  rw [hw.resolve he, hs]
  rfl

theorem lookup_eq (hw : h.Borne b w) (he : e < k) (x : String) :
    lookup (w.scope e) x w.machine =
      (((h.nearest e x).bind (h.written · x)).elim
        (.error (.error (.undefinedName x) none)) .ok, w.machine) := by
  unfold lookup Store.get?
  rw [hw.resolve he]
  cases hs : h.nearest e x with
  | none => rfl
  | some s =>
    have hlt := h.lt_of_mem_chain he (mem_of_nearest hs).1
    simp only [Option.map_some, Option.bind_some, hw.written s hlt]
    cases h.written s x <;> rfl

theorem exists_written (hw : h.Borne b w) (hs : s < k) {x : String} (hx : x ∈ h.definitions s) :
    ∃ v, h.written s x = some v := by
  have hcontains := (hw.contains_iff hs x).mpr hx
  rw [Frame.contains, hw.written s hs] at hcontains
  exact Option.isSome_iff_exists.mp hcontains

theorem set (hw : h.Borne b w) (hs : s < k) {x : String} {v : Value} (h' : ScopeHistory k)
    (hchain : h'.chain = h.chain)
    (hnames : ∀ t, (h'.definitions t).eraseDups =
      if t = s ∧ x ∉ h.definitions s then (h.definitions t).eraseDups ++ [x]
      else (h.definitions t).eraseDups)
    (hwritten : ∀ t y, h'.written t y = if t = s ∧ y = x then some v else h.written t y) :
    h'.Borne b ⟨{ w.machine with store := w.machine.store.update (b + s) x v }, w.scopes⟩ where
  fresh := (Store.fresh_update ..).trans hw.fresh
  length := hw.length
  scope e he := hchain ▸ hw.scope e he
  names t ht := by
    rw [hw.frame_update hs, hnames]
    by_cases heq : t = s
    · subst heq
      have hmem := (Frame.contains_iff_mem_names _ x).symm.trans (hw.contains_iff ht x)
      rw [if_pos rfl, Frame.names_set]
      by_cases hx : x ∈ h.definitions t
      · rw [if_pos (hmem.mpr hx), if_neg fun h => h.2 hx, hw.names t ht]
      · rw [if_neg (mt hmem.mp hx), if_pos ⟨rfl, hx⟩, hw.names t ht]
    · rw [if_neg heq, if_neg fun h => heq h.1]
      exact hw.names t ht
  written t ht y := by
    rw [hw.frame_update hs, hwritten]
    by_cases heq : t = s
    · rw [if_pos heq, Frame.get?_set, hw.written t ht]
      simp only [heq, true_and]
    · rw [if_neg heq, if_neg fun h => heq h.1]
      exact hw.written t ht y

theorem binds (hw : h.Borne b w) (hs : s < k) (x : String) (v : Value) :
    w.Binds s x v ⟨{ w.machine with store := w.machine.store.update (b + s) x v }, w.scopes⟩ := by
  have hframe (t : Nat) (ht : t < w.scopes.length) :
      Environments.own ⟨{ w.machine with store := w.machine.store.update (b + s) x v }, w.scopes⟩ t =
        if t = s then (w.own t).set x v else w.own t := by
    rw [hw.length] at ht
    obtain ⟨u, hu⟩ := h.chain_eq_cons ht
    have hown : w.own t = w.machine.store.frame (b + t) := hw.own ht
    rw [hown, ← hw.frame_update hs]
    unfold Environments.own
    change ((w.scope t).head?.elim _ _) = _
    rw [hw.scope t ht, hu]
    rfl
  refine ⟨fun t ht y => ?_, fun t ht hne => ?_, rfl, rfl, Store.fresh_update ..⟩
  · rw [hframe t ht]
    by_cases heq : t = s
    · rw [if_pos heq, Frame.get?_set]
      simp only [heq, true_and]
    · rw [if_neg heq, if_neg fun h => heq h.1]
  · rw [hframe t ht, if_neg hne]

theorem define (hw : h.Borne b w) (e : Fin k) (x : String) (v : Value) :
    (h.define e x v).Borne b (w.after (Evaluation.define (w.scope e) x v)) := by
  have hset : (h.define e x v).Borne b
      ⟨{ w.machine with store := w.machine.store.update (b + e) x v }, w.scopes⟩ := by
    apply hw.set e.isLt (h.define e x v) rfl
    · intro t
      rw [definitions]
      by_cases ht : t = e
      · subst ht
        by_cases hx : x ∈ h.definitions e <;>
          simp [List.eraseDups_append, List.removeAll, List.eraseDups_cons, hx]
      · rw [if_neg ht, if_neg fun h => ht h.1]
    · exact fun _ _ => rfl
  rwa [Environments.after, hw.define_eq e.isLt]

theorem assign (hw : h.Borne b w) (e : Fin k) (x : String) (v : Value) :
    (h.assign e x v).Borne b (w.after (Evaluation.assign (w.scope e) x v)) := by
  unfold Environments.after
  cases hs : h.nearest e x with
  | none =>
    rw [hw.assign_of_none e.isLt hs]
    refine ⟨hw.fresh, hw.length, hw.scope, hw.names, fun t ht y => ?_⟩
    rw [ScopeHistory.written, hs, if_neg nofun]
    exact hw.written t ht y
  | some s =>
    obtain ⟨hmem, hdefined⟩ := mem_of_nearest hs
    rw [hw.assign_of_nearest e.isLt hs]
    apply hw.set (h.lt_of_mem_chain e.isLt hmem) (h.assign e x v) rfl
    · intro t
      rw [if_neg fun h => h.2 hdefined]
      rfl
    · intro t y
      simp only [ScopeHistory.written, hs, Option.some_inj, eq_comm (a := s)]

theorem openChild (hw : h.Borne b w) (e : Fin k) : (h.child e).Borne b (w.openChild e) where
  fresh := (Store.fresh_push ..).trans (congrArg (· + 1) hw.fresh)
  length := (List.length_append ..).trans (congrArg (· + 1) hw.length)
  scope a ha := by
    change (w.scopes ++ [w.machine.store.fresh :: w.scope e])[a]?.getD [] = _
    rw [chain]
    by_cases hlast : a = k
    · have hlength : a = w.scopes.length := hlast.trans hw.length.symm
      rw [if_pos hlast, hlength, List.getElem?_concat_length, hw.scope e e.isLt, hw.fresh]
      rfl
    · have hlt : a < k := by omega
      rw [if_neg hlast, List.getElem?_append_left (by rwa [hw.length])]
      exact hw.scope a hlt
  names s hs := by
    change ((w.machine.store.push []).frame (b + s)).names = (h.definitions s).eraseDups
    rw [Store.frame_push, hw.fresh]
    by_cases hlast : s = k
    · rw [if_pos (congrArg _ hlast), definitions_of_le h (Nat.le_of_eq hlast.symm)]
      rfl
    · rw [if_neg fun h => hlast (Nat.add_left_cancel h)]
      exact hw.names s (by omega)
  written s hs y := by
    change ((w.machine.store.push []).frame (b + s)).get? y = h.written s y
    rw [Store.frame_push, hw.fresh]
    by_cases hlast : s = k
    · rw [if_pos (congrArg _ hlast), written_of_le h (Nat.le_of_eq hlast.symm)]
      rfl
    · rw [if_neg fun h => hlast (Nat.add_left_cancel h)]
      exact hw.written s (by omega) y

theorem openRoot (m : Machine) : root.Borne m.store.fresh (root.run m) where
  fresh := Store.fresh_push ..
  length := rfl
  scope e he := by
    obtain rfl : e = 0 := by omega
    rfl
  names s hs := by
    obtain rfl : s = 0 := by omega
    change ((m.store.push []).frame m.store.fresh).names = []
    rw [Store.frame_push, if_pos rfl]
    rfl
  written s hs y := by
    obtain rfl : s = 0 := by omega
    change ((m.store.push []).frame m.store.fresh).get? y = none
    rw [Store.frame_push, if_pos rfl]
    rfl

end Borne

theorem describeWithin_eq (s : Store) (room : Nat) {scope : Scope} (hscope : scope ≠ []) :
    s.describeWithin room scope =
      if scope.length ≤ room then some (levelsText (scope.map fun a => (s.frame a).names))
      else none := by
  induction room generalizing scope with
  | zero => exact (if_neg fun h => hscope (List.length_eq_zero_iff.mp (Nat.le_zero.mp h))).symm
  | succ room ih =>
    rcases scope with _ | ⟨a, _ | ⟨b, scope⟩⟩
    · exact absurd rfl hscope
    · rfl
    · simp only [Store.describeWithin, ih (List.cons_ne_nil b scope), List.length_cons,
        Nat.add_le_add_iff_right]
      split <;> rfl

theorem borne_run (m : Machine) {k : Nat} (h : ScopeHistory k) :
    h.Borne m.store.fresh (h.run m) := by
  induction h with
  | root => exact .openRoot m
  | define _ e x v ih => exact ih.define e x v
  | assign _ e x v ih => exact ih.assign e x v
  | child _ e ih => exact ih.openChild e
  | contains _ _ _ ih => exact ⟨ih.fresh, ih.length, ih.scope, ih.names, ih.written⟩
  | get _ e x ih =>
    rw [run, Environments.after, ih.lookup_eq e.isLt]
    exact ⟨ih.fresh, ih.length, ih.scope, ih.names, ih.written⟩

/-- The laws of environments, whatever was done before: what is in sight from `e`, what it leads to, and
what a definition or an assignment changes. The environment is shown level by level, each name once and in
the order of first definitions, on every stack that has room for its chain and on no other. -/
theorem laws {k : Nat} (h : ScopeHistory k) (m : Machine) (e : Fin k) (x : String) :
    let w := h.run m
    let scope := w.scope e
    let contained := w.machine.store.contains scope x
    (contained = true ↔ ∃ s ∈ h.chain e, x ∈ h.definitions s) ∧
      (∀ s, h.nearest e x = some s →
        ∃ v, h.written s x = some v ∧ lookup scope x w.machine = (.ok v, w.machine)) ∧
      (∀ s v, h.nearest e x = some s →
        (Evaluation.assign scope x v w.machine).1 = .ok () ∧
          w.Binds s x v (w.after (Evaluation.assign scope x v))) ∧
      (∀ v, (Evaluation.define scope x v w.machine).1 = .ok () ∧
        w.Binds e x v (w.after (Evaluation.define scope x v))) ∧
      (contained = false →
        let undefined := Stop.error (.undefinedName x) none
        lookup scope x w.machine = (.error undefined, w.machine) ∧
          ∀ v, Evaluation.assign scope x v w.machine = (.error undefined, w.machine)) ∧
      ∀ room, w.machine.store.describeWithin room scope =
        if (h.chain e).length ≤ room then
          some (levelsText ((h.chain e).map fun s => (h.definitions s).eraseDups))
        else none := by
  intro w scope contained
  have hw : h.Borne m.store.fresh w := h.borne_run m
  have hcontained : contained = (h.nearest e x).isSome := by
    change (w.machine.store.resolve scope x).isSome = _
    rw [hw.resolve e.isLt, Option.isSome_map]
  refine ⟨?_, ?_, ?_, ?_, ?_, ?_⟩
  · rw [hcontained, nearest, List.find?_isSome]
    simp only [decide_eq_true_iff]
  · intro s hs
    obtain ⟨hmem, hdefined⟩ := mem_of_nearest hs
    obtain ⟨v, hv⟩ := hw.exists_written (h.lt_of_mem_chain e.isLt hmem) hdefined
    refine ⟨v, hv, ?_⟩
    rw [hw.lookup_eq e.isLt, hs, Option.bind_some, hv]
    rfl
  · intro s v hs
    have hlt := h.lt_of_mem_chain e.isLt (mem_of_nearest hs).1
    rw [Environments.after, hw.assign_of_nearest e.isLt hs]
    exact ⟨rfl, hw.binds hlt x v⟩
  · intro v
    rw [Environments.after, hw.define_eq e.isLt]
    exact ⟨rfl, hw.binds e.isLt x v⟩
  · intro hnot
    have hnone : h.nearest e x = none := by
      rwa [hcontained, Option.isSome_eq_false_iff, Option.isNone_iff_eq_none] at hnot
    refine ⟨?_, hw.assign_of_none e.isLt hnone⟩
    rw [hw.lookup_eq e.isLt, hnone]
    rfl
  · intro room
    have hscope : scope = (h.chain e).map (m.store.fresh + ·) := hw.scope e e.isLt
    have hne : scope ≠ [] := by
      obtain ⟨t, ht⟩ := h.chain_eq_cons e.isLt
      rw [hscope, ht]
      exact List.cons_ne_nil _ _
    have hlevels : (scope.map fun a => (w.machine.store.frame a).names) =
        (h.chain e).map fun s => (h.definitions s).eraseDups := by
      rw [hscope, List.map_map]
      apply List.map_congr_left
      intro s hs
      exact hw.names s (h.lt_of_mem_chain e.isLt hs)
    rw [describeWithin_eq _ room hne, hlevels, hscope, List.length_map]

example (v : Value) :
    let before := ((root.define 0 "x" v).child 0).child 1
    let after := (before.define 1 "x" .nil).assign 2 "x" v
    before.nearest 2 "x" = some 0 ∧ after.nearest 2 "x" = some 1 ∧ after.written 1 "x" = some v :=
  ⟨rfl, rfl, rfl⟩

end ScopeHistory

end Scriptlet
