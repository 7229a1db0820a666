import Scriptlet.Proofs.ConfinedParsers
import Scriptlet.Proofs.LoopBounds
import Scriptlet.Proofs.OperatorChains

/-!
What the limit on nesting bounds. A level of nesting lets trees grow by nine steps and rules by three
inside each other, apart from the steps along chains, which are read in loops, and from the values of
assignments, each behind an equals sign of its own.
-/

namespace Scriptlet

open Scriptlet.Parser

namespace Rule

def reach : Rule → Nat
  | statement | expression => 1
  | unary | declaration => 2
  | assignment => 3

def need (rule : Rule) (s : Surroundings) (c : Cursor) : Nat :=
  3 * s.levels + rule.reach + c.equals

def Shallow (s : Surroundings) : Rule → Node → Prop
  | assignment, n => n.depth 0 + n.step 0 .assignments ≤ 9 * s.levels + 8
  | expression, n => n.depth 0 < 9 * s.levels
  | statement, n | declaration, n => n.depth 0 ≤ 9 * s.levels
  | unary, n => n.depth 0 ≤ 9 * s.levels + 1

end Rule

def ShallowRules (recur : Rule → Parser Node) (room : Nat) : Prop :=
  ∀ rule s c, rule.need s c ≤ room → Confined (recur rule) s c fun n _ => rule.Shallow s n

namespace Grammar

variable {recur : Rule → Parser Node} {room : Nat} {s : Surroundings} {c : Cursor}

theorem confined_endStatement {slot : Slot} : Confined (endStatement slot) s c fun _ _ => True := by
  unfold endStatement
  rw [confined_currentKind_bind]
  split
  · exact confined_pure trivial
  · exact confined_require.bind fun _ _ _ _ => confined_pure trivial

theorem confined_parameter {params : List String} :
    Confined (parameter params) s c fun _ _ => True := by
  unfold parameter
  apply confined_require.bind
  intro t d _ _
  split
  · exact confined_fault
  · exact confined_pure trivial

theorem confined_parametersFrom (n : Nat) (params : List String) :
    Confined (parametersFrom n params) s c fun _ _ => True := by
  induction n generalizing params c with
  | zero => exact confined_exhausted
  | succ n ih =>
    apply confined_parameter.bind
    intro p d _ _
    apply confined_accept.bind
    intro yes d' _ _
    split
    · exact ih _
    · exact confined_pure trivial

theorem confined_parameters : Confined parameters s c fun _ _ => True := by
  apply confined_require.bind
  intro _ d _ _
  have hlist : Confined parameterList s d fun _ _ => True := by
    unfold parameterList
    rw [confined_currentKind_bind]
    split
    · exact confined_pure trivial
    · exact confined_parametersFrom s.length []
  apply hlist.bind
  intro params d' _ _
  exact confined_require.bind fun _ _ _ _ => confined_pure trivial

theorem confined_body (hrec : ShallowRules recur room) (hroom : 3 * s.levels + c.equals ≤ room) :
    Confined (body recur) s c fun r _ => Node.depths 0 r.2 + 9 ≤ 9 * s.levels + 1 := by
  apply confined_require.bind
  intro brace d hd _
  have hstatements : Confined (nested do
      manyUntil [.symbol .rightBrace, .endOfInput] (recur .declaration) (← read).length []) s d
      fun ns _ => Node.depths 0 ns + 9 ≤ 9 * s.levels + 1 := by
    refine .nested fun hs => ?_
    have hlevels := Surroundings.levels_deeper hs
    rw [confined_read_bind]
    refine (Confined.manyUntil (fun e he => hrec .declaration _ e ?_) _ (by simp)).post
      fun ns _ _ hns => ?_
    · simp only [Rule.need, Rule.reach]
      omega
    · have hdepths := Node.depths_le_iff.mpr fun n hn => Nat.lt_succ_of_le (hns n hn)
      omega
  apply hstatements.bind
  intro ns d' _ hns
  exact confined_require.bind fun _ _ _ _ => confined_pure hns

theorem confined_definition (hrec : ShallowRules recur room) (hroom : 3 * s.levels + c.equals ≤ room)
    (pos : Position) (name : Option String) :
    Confined (definition recur pos name) s c fun f _ => f.depth 0 + 9 ≤ 9 * s.levels + 1 := by
  apply confined_parameters.bind
  intro params d hd _
  have hbody : Confined (Parser.inFunction (body recur)) s d
      fun r _ => Node.depths 0 r.2 + 9 ≤ 9 * s.levels + 1 :=
    (confined_body (s := { s with inFunction := true }) hrec
      (Nat.le_trans (Nat.add_le_add_left hd _) hroom)).inFunction
  apply hbody.bind
  rintro ⟨bodyPos, ns⟩ d' _ hns
  exact confined_pure hns

theorem confined_literal {value : Token → Value} :
    Confined (literal value) s c fun n _ => n.depth 0 = 0 :=
  confined_take.bind fun _ _ _ _ => confined_pure rfl

theorem confined_expression (hrec : ShallowRules recur room)
    (hroom : 3 * s.levels + 1 + c.equals ≤ room) :
    Confined (recur .expression) s c fun n _ => n.depth 0 < 9 * s.levels :=
  hrec .expression s c hroom

theorem confined_branch (hrec : ShallowRules recur room) (hroom : 3 * s.levels + 1 + c.equals ≤ room) :
    Confined (recur .statement) s c fun n _ => n.depth 0 ≤ 9 * s.levels :=
  hrec .statement s c hroom

theorem confined_group (hrec : ShallowRules recur room) (hroom : 3 * s.levels + 1 + c.equals ≤ room) :
    Confined (group recur) s c fun n _ => n.depth 0 ≤ 9 * s.levels := by
  apply confined_take.bind
  intro _ d hd _
  apply (confined_expression hrec (by omega)).bind
  intro n d' _ hn
  exact confined_require.bind fun _ _ _ _ => confined_pure (Nat.le_of_lt hn)

theorem confined_primary (hrec : ShallowRules recur room)
    (hroom : 3 * s.levels + 1 + c.equals ≤ room) :
    Confined (primary recur) s c fun n _ => n.depth 0 ≤ 9 * s.levels := by
  have hliteral (value : Token → Value) :
      Confined (literal value) s c fun n _ => n.depth 0 ≤ 9 * s.levels :=
    confined_literal.post fun n _ _ hn => hn.le.trans (Nat.zero_le _)
  unfold primary
  rw [confined_current_bind]
  split
  · exact hliteral _
  · exact hliteral _
  · exact hliteral _
  · exact hliteral _
  · exact hliteral _
  · exact confined_take.bind fun _ _ _ _ => confined_pure (Nat.zero_le _)
  · exact confined_group hrec hroom
  · apply confined_take.bind
    intro t d hd _
    apply (confined_definition hrec (by omega) t.pos none).bind
    intro f d' _ hf
    apply confined_pure
    simp only [Node.depth]
    omega
  · exact confined_fault

theorem confined_arguments (hrec : ShallowRules recur room)
    (hroom : 3 * s.levels + 1 + c.equals ≤ room) :
    Confined (arguments recur) s c fun ns _ => Node.depths 0 ns ≤ 9 * s.levels := by
  have hitem (d : Cursor) (hd : d.equals ≤ c.equals) :
      Confined (recur .expression) s d fun n _ => n.depth 0 < 9 * s.levels :=
    confined_expression hrec (by omega)
  unfold arguments
  rw [confined_currentKind_bind]
  split
  · exact confined_pure (Nat.zero_le _)
  · rw [confined_read_bind]
    apply (hitem c (Nat.le_refl _)).bind
    intro m d hd hm
    refine (Confined.manyCommas (fun e he => hitem e (Nat.le_trans he hd)) _
      (List.forall_mem_singleton.mpr hm)).post fun ns _ _ hns => ?_
    exact Node.depths_le_iff.mpr hns

theorem confined_callsFrom (hrec : ShallowRules recur room)
    (hroom : 3 * s.levels + 1 + c.equals ≤ room) (n : Nat) {callee : Node}
    (hcallee : callee.depth 0 + callee.step 0 .calls ≤ 9 * s.levels + 1) :
    Confined (callsFrom recur n callee) s c fun m _ => m.depth 0 ≤ 9 * s.levels + 1 := by
  induction n generalizing callee c with
  | zero => exact confined_exhausted
  | succ n ih =>
    unfold callsFrom
    rw [confined_currentKind_bind]
    split
    · apply confined_take.bind
      intro paren d hd _
      apply (confined_arguments hrec (by omega)).bind
      intro args d₁ hd₁ hargs
      apply confined_require.bind
      intro _ d₂ hd₂ _
      apply ih (by omega)
      change max (callee.depth 0 + callee.step 0 .calls) (Node.depths 0 args) + 0 ≤ _
      omega
    · exact confined_pure (Nat.le_of_add_right_le hcallee)

theorem confined_unary (hrec : ShallowRules recur room) (hroom : 3 * s.levels + 1 + c.equals ≤ room) :
    Confined (unary recur) s c fun n _ => n.depth 0 ≤ 9 * s.levels + 1 := by
  unfold unary
  rw [confined_currentKind_bind]
  split
  · apply confined_take.bind
    intro op d hd _
    have hoperand : Confined (nested (recur .unary)) s d fun n _ => n.depth 0 + 9 ≤ 9 * s.levels + 1 := by
      refine .nested fun hs => ?_
      have hlevels := Surroundings.levels_deeper hs
      refine (hrec .unary _ d ?_).post fun n _ _ hn => ?_
      · simp only [Rule.need, Rule.reach]
        omega
      · simp only [Rule.Shallow] at hn
        omega
    apply hoperand.bind
    intro n d' _ hn
    apply confined_pure
    simp only [Node.depth]
    omega
  · rw [confined_read_bind]
    apply (confined_primary hrec hroom).bind
    intro n d hd hn
    have hstep := n.step_le .calls
    exact confined_callsFrom hrec (by omega) s.length (by omega)

section

variable {operand : Parser Node} {k : Nat}

theorem confined_chainFrom {ops : List TokenKind}
    (hoperand : ∀ d, d.equals ≤ c.equals → Confined operand s d fun n _ => n.depth 0 ≤ k) (n : Nat)
    {left : Node} (hleft : left.depth 0 + left.step 0 .operations ≤ k + 1) :
    Confined (chainFrom ops operand n left) s c fun m _ => m.depth 0 ≤ k + 1 := by
  induction n generalizing left c with
  | zero => exact confined_exhausted
  | succ n ih =>
    unfold chainFrom
    rw [confined_currentKind_bind]
    split
    · apply confined_take.bind
      intro op d hd _
      apply (hoperand d hd).bind
      intro right d₁ hd₁ hright
      have hle := Nat.le_trans hd₁ hd
      apply ih fun e he => hoperand e (Nat.le_trans he hle)
      change max (left.depth 0 + left.step 0 .operations) (right.depth 0 + 1) + 0 ≤ _
      omega
    · exact confined_pure (Nat.le_of_add_right_le hleft)

theorem confined_chain {ops : List TokenKind}
    (hoperand : ∀ d, d.equals ≤ c.equals → Confined operand s d fun n _ => n.depth 0 ≤ k) :
    Confined (chain ops operand) s c fun m _ => m.depth 0 ≤ k + 1 := by
  unfold chain
  rw [confined_read_bind]
  apply (hoperand c (Nat.le_refl _)).bind
  intro left d hd hleft
  exact confined_chainFrom (fun e he => hoperand e (Nat.le_trans he hd)) s.length
    (Nat.add_le_add hleft (left.step_le .operations))

end

theorem confined_levels (hrec : ShallowRules recur room) (hroom : 3 * s.levels + 2 + c.equals ≤ room)
    (ls : List (List TokenKind)) :
    Confined (ls.foldr chain (recur .unary)) s c fun n _ => n.depth 0 ≤ 9 * s.levels + 1 + ls.length := by
  induction ls generalizing c with
  | nil => exact hrec .unary s c hroom
  | cons ops ls ih => exact confined_chain fun d hd => ih (by omega)

theorem confined_assignment (hrec : ShallowRules recur room)
    (hroom : 3 * s.levels + 2 + c.equals ≤ room) :
    Confined (assignment recur) s c fun n _ => n.depth 0 + n.step 0 .assignments ≤ 9 * s.levels + 8 := by
  apply (confined_levels hrec hroom levels).bind
  intro target d hd htarget
  rw [confined_currentKind_bind]
  split
  · rename_i heq
    apply confined_take.bind
    intro equals d₁ hd₁ hless
    have hless := hless heq
    have hneed : Rule.assignment.need s d₁ ≤ room := by
      simp only [Rule.need, Rule.reach]
      omega
    apply (hrec .assignment s d₁ hneed).bind
    intro value d₂ _ hvalue
    split
    · exact confined_pure hvalue
    · exact confined_fault
  · apply confined_pure
    have hstep := target.step_le .assignments
    simp only [levels, List.length_cons, List.length_nil] at htarget
    omega

theorem confined_elseBranch (hrec : ShallowRules recur room)
    (hroom : 3 * s.levels + 1 + c.equals ≤ room) :
    Confined (elseBranch recur) s c fun r _ => Node.depthOption 0 r ≤ 9 * s.levels + 1 := by
  apply confined_accept.bind
  intro yes d hd _
  split
  · rw [← bind_pure_comp]
    apply (confined_branch hrec (by omega)).bind
    intro n d' _ hn
    exact confined_pure (Nat.succ_le_succ hn)
  · exact confined_pure (Nat.zero_le _)

theorem confined_conditional (hrec : ShallowRules recur room)
    (hroom : 3 * s.levels + 1 + c.equals ≤ room) :
    Confined (conditional recur) s c fun n _ => n.depth 0 ≤ 9 * s.levels + 1 := by
  apply confined_take.bind
  intro keyword d hd _
  apply (confined_expression hrec (by omega)).bind
  intro condition d₁ hd₁ hcondition
  apply confined_require.bind
  intro _ d₂ hd₂ _
  apply (confined_branch hrec (by omega)).bind
  intro n d₃ hd₃ hn
  apply (confined_elseBranch hrec (by omega)).bind
  intro r d₄ _ hr
  apply confined_pure
  simp only [Node.depth]
  omega

theorem confined_loop (hrec : ShallowRules recur room) (hroom : 3 * s.levels + 1 + c.equals ≤ room) :
    Confined (loop recur) s c fun n _ => n.depth 0 ≤ 9 * s.levels + 1 := by
  apply confined_take.bind
  intro keyword d hd _
  apply (confined_expression hrec (by omega)).bind
  intro condition d₁ hd₁ hcondition
  apply confined_require.bind
  intro _ d₂ hd₂ _
  apply (confined_branch hrec (by omega)).bind
  intro n d₃ _ hn
  apply confined_pure
  simp only [Node.depth]
  omega

theorem confined_returnStatement (hrec : ShallowRules recur room)
    (hroom : 3 * s.levels + 1 + c.equals ≤ room) :
    Confined (returnStatement recur) s c fun n _ => n.depth 0 ≤ 9 * s.levels := by
  unfold returnStatement
  rw [confined_read_bind]
  split
  · apply confined_take.bind
    intro keyword d hd _
    have hvalue : Confined (returnValue recur) s d fun r _ => Node.depthOption 0 r ≤ 9 * s.levels := by
      unfold returnValue
      rw [confined_currentKind_bind]
      split
      · exact confined_pure (Nat.zero_le _)
      · rw [← bind_pure_comp]
        apply (confined_expression hrec (by omega)).bind
        intro n d' _ hn
        exact confined_pure hn
    apply hvalue.bind
    intro r d' _ hr
    exact confined_endStatement.bind fun _ _ _ _ => confined_pure hr
  · rw [confined_current_bind]
    exact confined_fault

theorem confined_expressionStatement (hrec : ShallowRules recur room)
    (hroom : 3 * s.levels + 1 + c.equals ≤ room) :
    Confined (expressionStatement recur) s c fun n _ => n.depth 0 ≤ 9 * s.levels := by
  apply (confined_expression hrec hroom).bind
  intro n d _ hn
  exact confined_endStatement.bind fun _ _ _ _ => confined_pure hn

theorem confined_statement (hrec : ShallowRules recur room)
    (hroom : 3 * s.levels + 1 + c.equals ≤ room) :
    Confined (statement recur) s c fun n _ => n.depth 0 ≤ 9 * s.levels + 1 := by
  unfold statement
  rw [confined_currentKind_bind]
  split
  · exact confined_conditional hrec hroom
  · exact confined_loop hrec hroom
  · exact (confined_returnStatement hrec hroom).post fun _ _ _ => Nat.le_succ_of_le
  · apply (confined_body hrec (by omega)).bind
    rintro ⟨pos, ns⟩ d _ hns
    apply confined_pure
    simp only [Node.depth] at hns ⊢
    omega
  · exact (confined_expressionStatement hrec hroom).post fun _ _ _ => Nat.le_succ_of_le

theorem confined_functionDeclaration (hrec : ShallowRules recur room)
    (hroom : 3 * s.levels + c.equals ≤ room) :
    Confined (functionDeclaration recur) s c fun n _ => n.depth 0 ≤ 9 * s.levels := by
  apply confined_take.bind
  intro keyword d hd _
  apply confined_take.bind
  intro name d₁ hd₁ _
  apply (confined_definition hrec (by omega) keyword.pos name.text).bind
  intro f d₂ _ hf
  apply confined_pure
  simp only [Node.depth]
  omega

theorem confined_varDeclaration (hrec : ShallowRules recur room)
    (hroom : 3 * s.levels + 1 + c.equals ≤ room) :
    Confined (varDeclaration recur) s c fun n _ => n.depth 0 ≤ 9 * s.levels := by
  apply confined_take.bind
  intro keyword d hd _
  apply confined_require.bind
  intro name d₁ hd₁ _
  apply confined_require.bind
  intro _ d₂ hd₂ _
  apply (confined_expression hrec (by omega)).bind
  intro n d₃ _ hn
  exact confined_endStatement.bind fun _ _ _ _ => confined_pure hn

theorem confined_declaration (hrec : ShallowRules recur room)
    (hroom : 3 * s.levels + 1 + c.equals ≤ room) :
    Confined (declaration recur) s c fun n _ => n.depth 0 ≤ 9 * s.levels := by
  unfold declaration
  rw [confined_currentKind_bind, confined_nextKind_bind]
  split
  · exact confined_functionDeclaration hrec (by omega)
  · split
    · exact confined_varDeclaration hrec hroom
    · exact confined_branch hrec hroom

theorem shallowRules_expand (hrec : ShallowRules recur room) :
    ShallowRules (fun rule s c => expand recur rule s c) (room + 1) := by
  intro rule s c hneed
  simp only [Rule.need] at hneed
  cases rule with
  | declaration => exact confined_declaration hrec (by simp only [Rule.reach] at hneed; omega)
  | statement =>
    refine .nested fun hs => ?_
    have hlevels := Surroundings.levels_deeper hs
    simp only [Rule.reach] at hneed
    refine (confined_statement hrec (by omega)).post fun n _ _ hn => ?_
    simp only [Rule.Shallow]
    omega
  | expression =>
    refine .nested fun hs => ?_
    have hlevels := Surroundings.levels_deeper hs
    refine (hrec .assignment _ c ?_).post fun n _ _ hn => ?_
    · simp only [Rule.need, Rule.reach] at hneed ⊢
      omega
    · simp only [Rule.Shallow] at hn ⊢
      omega
  | assignment => exact confined_assignment hrec (by simp only [Rule.reach] at hneed; omega)
  | unary => exact confined_unary hrec (by simp only [Rule.reach] at hneed; omega)

theorem shallowRules_parseOr (last : Rule → Parser Node) (room : Nat) :
    ShallowRules (Rule.parseOr last room) room := by
  induction room with
  | zero =>
    intro rule s c hneed
    cases rule <;> simp [Rule.need, Rule.reach] at hneed
  | succ room ih => exact shallowRules_expand ih

end Grammar

theorem Cursor.equals_ofStream {s : TokenStream} {c : Cursor} (h : ofStream s = .ok c) :
    c.equals ≤ s.tokens.countP (·.kind = .symbol .equal) := by
  obtain ⟨ts, error⟩ := s
  rcases ts with _ | ⟨t, _ | ⟨u, ts⟩⟩
  · cases error with
    | some e => cases h
    | none =>
      obtain rfl := Except.ok.inj h
      exact Nat.le_of_eq rfl
  · cases error with
    | some e => cases h
    | none =>
      obtain rfl : ⟨t, t.endBehind, [], none⟩ = c := Except.ok.inj h
      simp [equals, List.countP_cons, kind_endBehind]
  · obtain rfl : ⟨t, u, ts, error⟩ = c := Except.ok.inj h
    exact Nat.le_refl _

namespace Program

variable {room length : Nat} {N : Int} {c : Cursor} {ns : List Node} {d : Cursor}

theorem confined_declarations (last : Rule → Parser Node) (s : Surroundings)
    (hroom : 3 * s.levels + 2 + c.equals ≤ room) (n : Nat) :
    Confined (manyUntil [.endOfInput] (Rule.parseOr last room .declaration) n []) s c
      fun ns _ => Node.depths 0 ns ≤ 9 * s.levels + 1 := by
  have hitem (d : Cursor) (hd : d.equals ≤ c.equals) :
      Confined (Rule.parseOr last room .declaration) s d fun n _ => n.depth 0 < 9 * s.levels + 1 :=
    (Grammar.shallowRules_parseOr last room .declaration s d
      (Nat.le_trans (Nat.add_le_add_left hd _) hroom)).post fun _ _ _ => Nat.lt_succ_of_le
  exact (Confined.manyUntil hitem n (by simp)).post fun _ _ _ => Node.depths_le_iff.mpr

theorem declarations_of_need (h : declarations room N length c = .ok (ns, d)) {room' : Nat}
    (hroom : 3 * N.toNat + 2 + c.equals ≤ room') :
    declarations room' N length c = .ok (ns, d) ∧ Node.depths 0 ns ≤ 9 * N.toNat + 1 := by
  have hmarked : declarationsOr (marked N) room N length c = .ok (ns, d) := by
    rw [declarations_unmark] at h
    cases hx : declarationsOr (marked N) room N length c with
    | error e => simp [hx, Except.mapError] at h
    | ok r => simpa [hx, Except.mapError] using h
  have hmore := declarations_of_unmarked hmarked (by simp) room'
  have hlevels : (⟨N, 0, false, length⟩ : Surroundings).levels = N.toNat := by
    simp [Surroundings.levels]
  have hconfined := confined_declarations (marked N) ⟨N, 0, false, length⟩ (hlevels ▸ hroom) length
  unfold Confined at hconfined
  cases hx : declarationsOr (marked N) room' N length c with
  | error e =>
    unfold declarationsOr at hx
    rw [hx] at hconfined
    have hless := declarations_of_unmarked hx (fun pos he => hconfined pos (Except.error.inj he)) room
    rw [Nat.add_comm, hmore] at hless
    cases hless
  | ok r =>
    have hless := declarations_of_unmarked hx (by simp) room
    rw [Nat.add_comm, hmore] at hless
    obtain rfl := Except.ok.inj hless
    refine ⟨by rw [declarations_unmark, hx]; rfl, ?_⟩
    unfold declarationsOr at hx
    rw [hx, hlevels] at hconfined
    exact hconfined.2

/-- Where a program is accepted, its tree is no deeper than the limit on nesting allows, but for the steps
along chains, and the rules inside each other are no more, but for one an equals sign. -/
theorem ofTokens_depth {s : TokenStream} {p : Program} (hN : 0 ≤ N) (h : ofTokens room N s = .ok p) :
    p.node.depth 0 ≤ 9 * (N + 1) ∧
      ∀ room' : Nat, 3 * N + 2 + s.tokens.countP (·.kind = .symbol .equal) ≤ room' →
        ofTokens room' N s = .ok p := by
  cases hc : Cursor.ofStream s with
  | error e =>
    unfold ofTokens at h
    rw [hc] at h
    cases h
  | ok c =>
    rw [ofTokens_eq hc] at h
    cases hd : declarations room N (s.tokens.length + 1) c with
    | error e => simp [hd, Except.map] at h
    | ok r =>
      obtain ⟨ns, d⟩ := r
      simp only [hd, Except.map, Except.ok.injEq] at h
      subst h
      have hequals := Cursor.equals_ofStream hc
      constructor
      · have hdepth := (declarations_of_need hd (Nat.le_refl _)).2
        simp only [Program.node, Node.depth]
        omega
      · intro room' hroom
        rw [ofTokens_eq hc, (declarations_of_need hd (by omega)).1]
        rfl

theorem ofTokens_depth_chain :
    ofTokens 10 4 ⟨chainOperand :: chainRest 44, none⟩ = .ok (chainProgram 44) ∧
      (chainProgram 44).node.height = 46 ∧ (chainProgram 44).node.depth 0 ≤ 9 * ((4 : Int) + 1) ∧
      ofTokens 14 4 ⟨chainOperand :: chainRest 44, none⟩ = .ok (chainProgram 44) := by
  obtain ⟨hdepth, hroom⟩ := ofTokens_depth (by decide) (ofTokens_chain 44 0 (Int.le_refl 4))
  exact ⟨ofTokens_chain 44 0 (Int.le_refl 4), height_chainProgram 44, hdepth, hroom 14 (by decide)⟩

/-- No multiple of the limit on nesting bounds the height of trees. -/
theorem not_exists_ofTokens_height :
    ¬∃ C : Nat, ∀ (room : Nat) (N : Int) (ts : List Token) (p : Program), 0 ≤ N →
      ofTokens room N ⟨ts, none⟩ = .ok p → p.node.height ≤ C * (N + 1) := by
  rintro ⟨C, hC⟩
  have hheight := hC 10 4 _ _ (by decide) (ofTokens_chain (5 * C) 0 (Int.le_refl 4))
  rw [height_chainProgram] at hheight
  omega

end Program

end Scriptlet
