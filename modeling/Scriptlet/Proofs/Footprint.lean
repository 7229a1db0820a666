import Mathlib
import Scriptlet.Proofs.FrameOwners
import Scriptlet.Proofs.ParallelTrees

/-!
The footprint of an evaluation: the scopes that can be reached from where it takes place. Nothing
outside is changed by it or makes a difference to it.
-/

namespace Scriptlet

/-- The scopes that are reached from `e`: itself, the parent of each, and the scope of every function
that is bound in the own frame of one. -/
inductive Store.Reaches (s : Store) (e : Scope) : Scope → Prop
  | self : s.Reaches e e
  | parent {a : Address} {t : Scope} (h : s.Reaches e (a :: t)) : s.Reaches e t
  | closure {a : Address} {t u : Scope} {x : String} {i : Nat} {d : Definition}
      (h : s.Reaches e (a :: t)) (hx : (x, .function i d u) ∈ s.frame a) : s.Reaches e u

def Frame.scopes (f : Frame) : List Scope :=
  f.filterMap fun
    | (_, .function _ _ u) => some u
    | _ => none

def Store.Footprint (s : Store) (e : Scope) (a : Address) : Prop :=
  ∃ t, s.Reaches e (a :: t)

structure Store.Agrees (A : Address → Prop) (s t : Store) : Prop where
  fresh : t.fresh = s.fresh
  frames : ∀ a, A a → t.frame a = s.frame a

/-- A store that comes up while programs of the parser are run one after another. -/
def Store.Reachable (s : Store) : Prop :=
  ∃ limits clock ps, (∀ p ∈ ps, Program.Parsed p) ∧
    let recorded := Program.recordAll limits [0] ps (Machine.initial clock).openRoot.2
    s ∈ stores recorded.2 ++ [recorded.1.2.store]

section

variable {s : Store} {e t : Scope} {a : Address}

theorem Store.Reaches.footprint (h : s.Reaches e t) (ha : a ∈ t) : s.Footprint e a := by
  induction t with
  | nil => cases ha
  | cons b t ih =>
    rcases List.mem_cons.mp ha with rfl | ha
    · exact ⟨t, h⟩
    · exact ih h.parent ha

theorem Store.Reaches.mem {S : List Scope} (he : e ∈ S)
    (hS : ∀ u ∈ S, u.tail ∈ S ∧ ∀ b ∈ u.head?, ∀ w ∈ (s.frame b).scopes, w ∈ S)
    (h : s.Reaches e t) : t ∈ S := by
  induction h with
  | self => exact he
  | parent _ ih => exact (hS _ ih).1
  | closure _ hx ih => exact (hS _ ih).2 _ rfl _ (List.mem_filterMap.mpr ⟨_, hx, rfl⟩)

theorem mem_stores {h : List Note} (hs : s ∈ stores h) :
    ∃ note ∈ h, ∃ m : Machine, m.store = s ∧ ∀ {P : Token → Prop} {ss : List Scope},
      note.Closed P ss → m.Closed P (ss.take m.store.fresh) := by
  obtain ⟨note, hnote, hs⟩ := List.mem_flatMap.mp hs
  cases note with
  | action before after =>
    rcases List.mem_pair.mp hs with rfl | rfl
    · exact ⟨_, hnote, before, rfl, fun h => h.1⟩
    · exact ⟨_, hnote, after, rfl, fun h => h.2⟩
  | evaluated node scope result after =>
    obtain rfl := List.mem_singleton.mp hs
    exact ⟨_, hnote, after, rfl, fun h => h.1⟩

theorem Store.reachable_recordAll (limits : Limits) (clock : Clock) {ps : List Program}
    (hps : ∀ p ∈ ps, p.Parsed) :
    (Program.recordAll limits [0] ps (Machine.initial clock).openRoot.2).1.2.store.Reachable :=
  ⟨limits, clock, ps, hps, List.mem_append_right _ (List.mem_singleton_self _)⟩

theorem Store.Reachable.closed (h : s.Reachable) :
    ∃ ss, ∀ m : Machine, m.store = s → m.Closed (fun _ => True) ss := by
  obtain ⟨limits, clock, ps, hps, hs⟩ := h
  obtain ⟨scopes, -, hproceeds⟩ := Program.proceeds limits (List.mem_singleton_self [0])
    (fun p hp => (hps p hp).formed) (Program.closed_openRoot clock)
  rcases List.mem_append.mp hs with hs | hs
  · obtain ⟨note, hnote, m, rfl, hclosed⟩ := mem_stores hs
    exact ⟨_, fun n hn => (hclosed (hproceeds.history note hnote)).of_store hn⟩
  · obtain rfl := List.mem_singleton.mp hs
    exact ⟨scopes, fun n hn => hproceeds.closed.of_store hn⟩

def footprintPairing (s : Store) (e : Scope) : Pairing :=
  { Pairing.identity with
    address := fun a a' => a = a' ∧ (s.Footprint e a ∨ s.fresh ≤ a)
    address_unique := fun h h' => by rw [h.1, h'.1] }

theorem exact_footprintPairing (s : Store) (e : Scope) : (footprintPairing s e).Exact where
  position h := h
  address h := h.1
  id h := h

theorem Store.Reaches.paired (h : s.Reaches e t) : (footprintPairing s e).scope t t :=
  List.forall₂_same.mpr fun _ ha => ⟨rfl, .inl (h.footprint ha)⟩

theorem like_frame {m : Machine} {ss : List Scope} (hm : m.Closed (fun _ => True) ss)
    (ha : m.store.Footprint e a) :
    (m.store.frame a).Like (footprintPairing m.store e) (m.store.frame a) := by
  obtain ⟨t, ht⟩ := ha
  apply List.forall₂_same.mpr
  rintro ⟨x, v⟩ hb
  refine ⟨rfl, ?_⟩
  have hv := hm.values v ⟨a, x, hb⟩
  cases v with
  | function i d u =>
    have hbody : d.Like (footprintPairing m.store e) d :=
      .of_body (fun _ => rfl) fun n hn => (hv.2 n hn).like fun _ => rfl
    exact .function rfl hbody (ht.closure hb).paired
  | undefined i => exact .undefined rfl
  | builtin b => exact .builtin b
  | returned v => exact hv.elim
  | nil => exact .nil
  | bool b => exact .bool b
  | number x => exact .number x
  | string s => exact .string s

theorem like_footprint {m : Machine} {ss : List Scope} (hm : m.Closed (fun _ => True) ss)
    {s : Store} (hs : m.store.Agrees (m.store.Footprint e) s) :
    m.Like (footprintPairing m.store e) { m with store := s } where
  store := by
    refine ⟨fun {a a'} h => ?_, fun k => ?_⟩
    · obtain ⟨rfl, ha | ha⟩ := h
      · rw [hs.frames a ha]
        exact like_frame hm ha
      · rw [m.store.frame_of_fresh_le ha, s.frame_of_fresh_le (hs.fresh ▸ ha)]
        exact .nil
    · rw [hs.fresh]
      exact ⟨rfl, .inr (Nat.le_add_right _ _)⟩
  made _ := rfl
  output := rfl
  steps := rfl
  depth := rfl
  clock := rfl

theorem Machine.Like.eq_with_store {m n : Machine} (h : m.Like (footprintPairing s e) n) :
    n = { m with store := n.store } := by
  have houtput : m.output = n.output := h.output
  have hsteps : m.steps = n.steps := h.steps
  have hmade : m.made = n.made := h.made 0
  rw [houtput, hsteps, h.depth, hmade, h.clock]

end

/-- However an evaluation ends, frames outside of its footprint are left as they were, and what they bind
makes no difference to it. A frame changes only while a node is evaluated with it in sight. -/
theorem Node.evaluateWithin_footprint {p : Program} (hp : p.Parsed) {k n : Node}
    (hk : k ∈ p.statements) (hn : n.Within k) {m : Machine} (hm : m.store.Reachable)
    (limits : Limits) (room : Nat) (e : Scope) :
    let x := n.evaluateWithin limits room e m
    let recorded := n.recordWithin limits room e m
    (∀ a < m.store.fresh, ¬m.store.Footprint e a → x.2.store.frame a = m.store.frame a) ∧
      (∀ s : Store, m.store.Agrees (m.store.Footprint e) s →
        let y := n.evaluateWithin limits room e { m with store := s }
        y.1 = x.1 ∧ y.2 = { x.2 with store := y.2.store } ∧
          x.2.store.Agrees (fun a => m.store.Footprint e a ∨ m.store.fresh ≤ a) y.2.store) ∧
      recorded.1 = x ∧
      ∀ a < m.store.fresh, x.2.store.frame a ≠ m.store.frame a →
        ∃ note ∈ recorded.2, note.Sees a := by
  intro x recorded
  obtain ⟨ss, hclosed⟩ := hm.closed
  obtain ⟨f, r, hformed⟩ := (hp.formed k hk).within hn
  have hexact := exact_footprintPairing m.store e
  have hpaired {s : Store} (hs : m.store.Agrees (m.store.Footprint e) s) :
      let ρ := footprintPairing m.store e
      Paired ρ (Value.Like ρ) m x (n.evaluateWithin limits room e { m with store := s }) := by
    apply parallel_evaluateWithin (.inr fun _ _ h => h) room
    · exact hformed.like fun _ => rfl
    · exact Store.Reaches.self.paired
    · exact like_footprint (hclosed m rfl) hs
  have hrecorded : recorded.1 = x :=
    (Recorded.simulates_matches limits).recordWithin (fun _ _ _ _ h => h) room n e m
  refine ⟨?_, ?_, hrecorded, ?_⟩
  · intro a ha hout
    apply (hpaired ⟨rfl, fun _ _ => rfl⟩).spares a
    rintro _ ⟨rfl, hin | hnew⟩
    · exact hout hin
    · exact Nat.not_le.mpr ha hnew
  · intro s hs y
    obtain ⟨hends, hmachine, -⟩ := hpaired hs
    refine ⟨(hends.eq hexact).symm, hmachine.eq_with_store, (hmachine.store.fresh 0).1.symm, ?_⟩
    intro a ha
    exact ((hmachine.store.frames ⟨rfl, ha⟩).eq hexact).symm
  · intro a ha hne
    have hframe := (accountable_recordWithin a limits room n e m ha).frame
    rw [← hrecorded] at hne
    exact hframe.resolve_right hne

namespace Program

def forgetting : Node :=
  .expression (some ⟨1, 27⟩) (.assign (some ⟨1, 27⟩) "c" (.literal (some ⟨1, 31⟩) .nil))

def makers : Program :=
  ⟨[.declareFunction (some ⟨1, 1⟩) ⟨some ⟨1, 1⟩, "f", ["c"], some ⟨1, 10⟩,
      [.ret (some ⟨1, 12⟩)
        (some (.function ⟨some ⟨1, 19⟩, none, [], some ⟨1, 25⟩, [forgetting]⟩))]⟩,
    .block (some ⟨1, 41⟩) [
      .declareVar (some ⟨1, 43⟩) "a" (.call (some ⟨1, 52⟩) (.name (some ⟨1, 51⟩) "f")
        [.literal (some ⟨1, 53⟩) (.bool true)]),
      .declareVar (some ⟨1, 60⟩) "b" (.call (some ⟨1, 69⟩) (.name (some ⟨1, 68⟩) "f")
        [.literal (some ⟨1, 70⟩) (.bool true)])]]⟩

open Token in
def makersTokens : List Token :=
  [inFirstLine (.keyword .funWord) "fun" 1, inFirstLine .identifier "f" 5,
    inFirstLine (.symbol .leftParen) "(" 6, inFirstLine .identifier "c" 7,
    inFirstLine (.symbol .rightParen) ")" 8, inFirstLine (.symbol .leftBrace) "\x7b" 10,
    inFirstLine (.keyword .returnWord) "return" 12, inFirstLine (.keyword .funWord) "fun" 19,
    inFirstLine (.symbol .leftParen) "(" 22, inFirstLine (.symbol .rightParen) ")" 23,
    inFirstLine (.symbol .leftBrace) "\x7b" 25, inFirstLine .identifier "c" 27,
    inFirstLine (.symbol .equal) "=" 29, inFirstLine (.keyword .nilWord) "nil" 31,
    inFirstLine (.symbol .semicolon) ";" 34, inFirstLine (.symbol .rightBrace) "\x7d" 36,
    inFirstLine (.symbol .semicolon) ";" 37, inFirstLine (.symbol .rightBrace) "\x7d" 39,
    inFirstLine (.symbol .leftBrace) "\x7b" 41, inFirstLine (.keyword .varWord) "var" 43,
    inFirstLine .identifier "a" 47, inFirstLine (.symbol .equal) "=" 49,
    inFirstLine .identifier "f" 51, inFirstLine (.symbol .leftParen) "(" 52,
    inFirstLine (.keyword .trueWord) "true" 53, inFirstLine (.symbol .rightParen) ")" 57,
    inFirstLine (.symbol .semicolon) ";" 58, inFirstLine (.keyword .varWord) "var" 60,
    inFirstLine .identifier "b" 64, inFirstLine (.symbol .equal) "=" 66,
    inFirstLine .identifier "f" 68, inFirstLine (.symbol .leftParen) "(" 69,
    inFirstLine (.keyword .trueWord) "true" 70, inFirstLine (.symbol .rightParen) ")" 74,
    inFirstLine (.symbol .semicolon) ";" 75, inFirstLine (.symbol .rightBrace) "\x7d" 77,
    .endOfInput ⟨1, 78⟩ 77]

set_option maxRecDepth 2000 in
theorem parsed_makers : makers.Parsed :=
  ⟨40, 8, ⟨makersTokens, none⟩, by cbv⟩

def afterMakers : Machine :=
  (recordAll { evaluationRoom := 20 } [0] [makers] (Machine.initial (0 : Float)).openRoot.2).1.2

theorem reachable_afterMakers : afterMakers.store.Reachable := by
  unfold afterMakers
  exact Store.reachable_recordAll _ (0 : Float) (List.forall_mem_singleton.mpr parsed_makers)

theorem not_footprint_afterMakers : ¬afterMakers.store.Footprint [2, 0] 3 := by
  rintro ⟨t, ht⟩
  have hmem : 3 :: t ∈ [[2, 0], [0], []] := by
    apply ht.mem (List.mem_cons_self)
    decide +kernel
  simp at hmem

theorem footprint_makers :
    makers.Parsed ∧ afterMakers.store.Reachable ∧ 3 < afterMakers.store.fresh ∧
      ¬afterMakers.store.Footprint [2, 0] 3 ∧
      let after := (forgetting.evaluateWithin {} 3 [2, 0] afterMakers).2.store
      after.frame 2 = [("c", .nil)] ∧ after.frame 3 = [("c", .bool true)] := by
  have hmaker : makers.statements[0] ∈ makers.statements := List.mem_cons_self
  have hwithin : forgetting.Within makers.statements[0] :=
    .part List.mem_cons_self (.part List.mem_cons_self (.part List.mem_cons_self .self))
  have hfresh : 3 < afterMakers.store.fresh := by decide +kernel
  obtain ⟨hout, -⟩ := Node.evaluateWithin_footprint parsed_makers hmaker hwithin
    reachable_afterMakers {} 3 [2, 0]
  refine ⟨parsed_makers, reachable_afterMakers, hfresh, not_footprint_afterMakers, by cbv, ?_⟩
  rw [hout 3 hfresh not_footprint_afterMakers]
  cbv

end Program

end Scriptlet
