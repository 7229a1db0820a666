import Scriptlet.Proofs.MachineGrowth
import Scriptlet.Proofs.TreeShape

namespace Scriptlet

inductive Grows (ss : List Scope) : List Scope → Prop
  | refl : Grows ss ss
  | child {ts : List Scope} {e : Scope} (h : Grows ss ts) (he : e ∈ ts) :
      Grows ss (ts ++ [ts.length :: e])

abbrev Opened (ss : List Scope) : Prop :=
  Grows [[0]] ss

theorem Grows.trans {ss ts us : List Scope} (h : Grows ss ts) (h' : Grows ts us) : Grows ss us := by
  induction h' with
  | refl => exact h
  | child _ he ih => exact .child ih he

theorem Grows.isPrefix {ss ts : List Scope} (h : Grows ss ts) : ss <+: ts := by
  induction h with
  | refl => exact List.prefix_refl _
  | child _ _ ih => exact ih.trans (List.prefix_append _ _)

/-- What is true of every scope in the tree: its parents are scopes, each made before those inside
it, the last one is the root, and no other scope has the same frame as its own. -/
structure Scope.Chained (ss : List Scope) (e : Scope) : Prop where
  descending : e.Pairwise (· > ·)
  root : e.getLast? = some 0
  parents : ∀ t, t <:+ e → t ≠ [] → t ∈ ss
  own : ∃ a, e.head? = some a ∧ ss[a]? = some e

namespace Scope.Chained

variable {ss ts : List Scope} {e : Scope}

theorem mono (h : Scope.Chained ss e) (hss : ss <+: ts) : Scope.Chained ts e := by
  obtain ⟨a, hhead, hget⟩ := h.own
  obtain ⟨us, rfl⟩ := hss
  have hlt := (List.getElem?_eq_some_iff.mp hget).1
  exact ⟨h.descending, h.root, fun t ht hne => List.mem_append_left us (h.parents t ht hne),
    a, hhead, by rwa [List.getElem?_append_left hlt]⟩

theorem ne_nil (h : Scope.Chained ss e) : e ≠ [] := by
  obtain ⟨a, hhead, -⟩ := h.own
  rintro rfl
  cases hhead

end Scope.Chained

theorem Opened.chained {ss : List Scope} (h : Opened ss) : ∀ e ∈ ss, Scope.Chained ss e := by
  induction h with
  | refl =>
    intro e he
    obtain rfl := List.mem_singleton.mp he
    refine ⟨List.pairwise_singleton _ _, rfl, fun t ht hne => ?_, 0, rfl, rfl⟩
    obtain rfl | h := List.suffix_cons_iff.mp ht
    · exact List.mem_singleton_self _
    · exact absurd (List.suffix_nil.mp h) hne
  | @child ts e hts he ih =>
    intro e' he'
    have hprefix : ts <+: ts ++ [ts.length :: e] := List.prefix_append _ _
    rcases List.mem_append.mp he' with he' | he'
    · exact (ih e' he').mono hprefix
    obtain rfl := List.mem_singleton.mp he'
    have hparent := ih e he
    -- Each frame of the parent is the first one of an environment that is there already.
    have hlt : ∀ a ∈ e, ts.length > a := by
      intro a ha
      obtain ⟨xs, ys, rfl⟩ := List.append_of_mem ha
      have hmem := hparent.parents (a :: ys) (List.suffix_append _ _) (List.cons_ne_nil _ _)
      obtain ⟨b, hb, hget⟩ := (ih _ hmem).own
      obtain rfl := Option.some.inj hb
      exact (List.getElem?_eq_some_iff.mp hget).1
    refine ⟨List.pairwise_cons.mpr ⟨hlt, hparent.descending⟩, ?_, fun t ht hne => ?_, ts.length, rfl, ?_⟩
    · rw [List.getLast?_cons_of_ne_nil hparent.ne_nil]
      exact hparent.root
    · obtain rfl | ht := List.suffix_cons_iff.mp ht
      · exact List.mem_append_right ts he'
      · exact hprefix.subset (hparent.parents t ht hne)
    · simp

def Value.Closed (P : Token → Prop) (ss : List Scope) : Value → Prop
  | .function _ d scope => scope ∈ ss ∧ ∀ n ∈ d.body, Formed P true .declaration n
  | .returned _ => False
  | _ => True

def Machine.Binds (m : Machine) (v : Value) : Prop :=
  ∃ a x, (x, v) ∈ m.store.frame a

structure Machine.Closed (P : Token → Prop) (ss : List Scope) (m : Machine) : Prop where
  fresh : m.store.fresh = ss.length
  values : ∀ v, m.Binds v → v.Closed P ss

variable {P : Token → Prop} {ss ts : List Scope} {m : Machine}

theorem Value.Closed.mono {v : Value} (h : v.Closed P ss) (hss : ss <+: ts) : v.Closed P ts := by
  cases v with
  | function i d scope => exact ⟨hss.subset h.1, h.2⟩
  | returned v => exact h
  | _ => trivial

theorem Frame.mem_of_mem_set {f : Frame} {x y : String} {v w : Value} (h : (y, w) ∈ f.set x v) :
    w = v ∨ (y, w) ∈ f := by
  induction f with
  | nil =>
    obtain ⟨-, rfl⟩ := Prod.mk.inj (List.mem_singleton.mp h)
    exact .inl rfl
  | cons b f ih =>
    rw [Frame.set] at h
    split at h
    · rcases List.mem_cons.mp h with h | h
      · obtain ⟨-, rfl⟩ := Prod.mk.inj h
        exact .inl rfl
      · exact .inr (List.mem_cons_of_mem _ h)
    · rcases List.mem_cons.mp h with h | h
      · exact .inr (h ▸ List.mem_cons_self)
      · exact (ih h).imp id (List.mem_cons_of_mem _)

theorem Frame.mem_of_get? {f : Frame} {x : String} {v : Value} (h : f.get? x = some v) :
    (x, v) ∈ f := by
  induction f with
  | nil => cases h
  | cons b f ih =>
    rw [Frame.get?_cons] at h
    split at h
    · rename_i hx
      obtain rfl := Option.some.inj h
      exact hx ▸ List.mem_cons_self
    · exact List.mem_cons_of_mem _ (ih h)

namespace Machine.Closed

theorem of_store {n : Machine} (h : m.Closed P ss) (hstore : n.store = m.store) : n.Closed P ss := by
  obtain ⟨hfresh, hvalues⟩ := h
  unfold Machine.Binds at hvalues
  rw [← hstore] at hfresh hvalues
  exact ⟨hfresh, hvalues⟩

theorem get? (h : m.Closed P ss) {scope : Scope} {x : String} {v : Value}
    (hv : m.store.get? scope x = some v) : v.Closed P ss := by
  obtain ⟨a, -, hget⟩ := Option.bind_eq_some_iff.mp hv
  exact h.values v ⟨a, x, Frame.mem_of_get? hget⟩

theorem update (h : m.Closed P ss) (a : Address) (x : String) {v : Value} (hv : v.Closed P ss) :
    { m with store := m.store.update a x v }.Closed P ss := by
  by_cases ha : a < m.store.fresh
  · refine ⟨(Store.fresh_update _ _ _ _).trans h.fresh, ?_⟩
    rintro w ⟨b, y, hw⟩
    simp only [Store.frame_update m.store a b x v ha] at hw
    split at hw
    · rcases Frame.mem_of_mem_set hw with rfl | hw
      · exact hv
      · exact h.values w ⟨b, y, hw⟩
    · exact h.values w ⟨b, y, hw⟩
  · rw [Store.update_of_fresh_le _ x v (Nat.not_lt.mp ha)]
    exact h

theorem define (h : m.Closed P ss) (scope : Scope) (x : String) {v : Value} (hv : v.Closed P ss) :
    { m with store := m.store.define scope x v }.Closed P ss := by
  cases scope with
  | nil => exact h
  | cons a scope => exact h.update a x hv

theorem push (h : m.Closed P ss) {f : Frame} (hf : ∀ b ∈ f, b.2.Closed P ss) {e : Scope} :
    { m with store := m.store.push f }.Closed P (ss ++ [m.store.fresh :: e]) := by
  refine ⟨?_, ?_⟩
  · rw [Store.fresh_push, h.fresh, List.length_append, List.length_singleton]
  · rintro v ⟨a, x, hv⟩
    simp only [Store.frame_push] at hv
    split at hv
    · exact (hf (x, v) hv).mono (List.prefix_append _ _)
    · exact (h.values v ⟨a, x, hv⟩).mono (List.prefix_append _ _)

theorem initial (clock : Clock) : (Machine.initial clock).Closed P [] := by
  refine ⟨rfl, ?_⟩
  rintro v ⟨a, x, hv⟩
  rw [Store.frame_of_fresh_le _ (Nat.zero_le a)] at hv
  cases hv

theorem openRoot (h : m.Closed P ss) : m.openRoot.2.Closed P (ss ++ [m.openRoot.1]) := by
  refine h.push fun b hb => ?_
  obtain ⟨builtin, -, rfl⟩ := List.mem_map.mp hb
  trivial

theorem take (h : m.Closed P ss) (hss : ss <+: ts) : m.Closed P (ts.take m.store.fresh) := by
  obtain ⟨us, rfl⟩ := hss
  rwa [h.fresh, List.take_left]

theorem take_mono (h : m.Closed P (ss.take m.store.fresh)) (hss : ss <+: ts) :
    m.Closed P (ts.take m.store.fresh) := by
  have hle : m.store.fresh ≤ ss.length :=
    Nat.le_trans (Nat.le_of_eq h.fresh) (List.length_take_le' _ _)
  obtain ⟨us, rfl⟩ := hss
  rwa [List.take_append_of_le_length hle]

end Machine.Closed

end Scriptlet
