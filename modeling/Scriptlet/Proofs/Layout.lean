import Scriptlet.Proofs.LikeStreams
import Scriptlet.Proofs.ParallelTrees

namespace Scriptlet

def Pairing.layout : Pairing :=
  { Pairing.identity with
    position := fun p p' => p.isSome = p'.isSome
    position_none := rfl
    position_isSome := fun h => h }

theorem Pairing.reflexive_layout : layout.Reflexive where
  position _ := rfl
  address _ := rfl
  id _ := rfl

theorem Machine.like_layout (m : Machine) : m.Like .layout m where
  store := m.store.like_self Pairing.reflexive_layout fun h => h
  made _ := rfl
  output := rfl
  steps := rfl
  depth := rfl
  clock := rfl

structure Token.Agrees (t t' : Token) : Prop where
  kind : t.kind = t'.kind
  text : t.text = t'.text
  value : t.value = t'.value

namespace Program

/-- Layout does not matter. Tokens that differ in their places alone are parsed to trees that differ
in their places alone, or fail with the same error. What the trees come to from one machine differs
in the places of errors, and in the places inside of functions that are bound. -/
theorem ofTokens_layout {ts ts' : List Token} (h : List.Forall₂ Token.Agrees ts ts') (room : Nat)
    (maxNesting : Int) :
    let parsed := ofTokens room maxNesting ⟨ts, none⟩
    let parsed' := ofTokens room maxNesting ⟨ts', none⟩
    (∃ e e', parsed = .error e ∧ parsed' = .error e' ∧ e.failure.Like .layout e'.failure) ∨
      ∃ p p', parsed = .ok p ∧ parsed' = .ok p' ∧
        List.Forall₂ (Node.Like .layout) p.statements p'.statements ∧
        ∀ (limits : Limits) (e : Scope) (m : Machine),
          let x := run limits p.statements e m
          let x' := run limits p'.statements e m
          ComesAlike .layout (x.1.mapError Stop.failure) (x'.1.mapError Stop.failure) ∧
            x.2.Like .layout x'.2 := by
  intro parsed parsed'
  have hlined : Pairing.layout.Lined := fun _ _ _ _ => rfl
  have htokens : List.Forall₂ (Token.Like .layout) ts ts' :=
    h.imp fun _ _ ht => ⟨ht.kind, ht.text, ht.value, rfl⟩
  have halike := parsedAlike hlined rfl htokens room maxNesting
  change ParsedAlike _ parsed parsed' at halike
  generalize parsed = x at halike ⊢
  generalize parsed' = x' at halike ⊢
  cases halike with
  | error he => exact .inl ⟨_, _, rfl, rfl, he.failure⟩
  | program hns =>
    refine .inr ⟨_, _, rfl, rfl, hns, fun limits e m => ?_⟩
    have hcounts : Pairing.layout.Counts limits.maxSteps := .inr fun _ _ => id
    obtain ⟨hends, hmachine, -⟩ := parallel_run hcounts rfl (List.forall₂_same.mpr fun _ _ => rfl)
      hns m m m.like_layout
    exact ⟨hends.comesAlike fun _ _ => Stop.Like.failure, hmachine⟩

theorem ofTokens_layout_blockOfCall :
    let ts := blockOfCall (fun i => ⟨1, i + 1⟩) ++ [.endOfInput ⟨1, 10⟩ 9]
    let ts' := blockOfCall (fun i => ⟨i + 1, 4⟩) ++ [.endOfInput ⟨10, 1⟩ 30]
    List.Forall₂ Token.Agrees ts ts' ∧
      ∃ p p', ofTokens 50 20 ⟨ts, none⟩ = .ok p ∧ ofTokens 50 20 ⟨ts', none⟩ = .ok p' ∧
        List.Forall₂ (Node.Like .layout) p.statements p'.statements ∧
        ∀ (limits : Limits) (e : Scope) (m : Machine),
          ComesAlike .layout ((run limits p.statements e m).1.mapError Stop.failure)
            ((run limits p'.statements e m).1.mapError Stop.failure) := by
  intro ts ts'
  have hagrees : List.Forall₂ Token.Agrees ts ts' := by
    repeat' constructor
  have hparsed : ofTokens 50 20 ⟨ts, none⟩ = .ok _ := ofTokens_blockOfCall _ _ _
  refine ⟨hagrees, ?_⟩
  obtain ⟨e, -, he, -⟩ | ⟨p, p', hp, hp', hlike, hruns⟩ := ofTokens_layout hagrees 50 20
  · rw [hparsed] at he
    cases he
  · exact ⟨p, p', hp, hp', hlike, fun limits e m => (hruns limits e m).1⟩

end Program

end Scriptlet
