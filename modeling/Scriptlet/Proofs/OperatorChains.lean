import Scriptlet.Proofs.EndOfInput
import Scriptlet.Proofs.ParserCompleteness
import Scriptlet.Proofs.SpacedSources
import Scriptlet.Proofs.TreeDepth

namespace Scriptlet

open Scriptlet.Parser

namespace Program

open Token in
def chainOperand : Token :=
  inFirstLine .identifier "x" 1

def chainRest : Nat → List Token
  | 0 => []
  | k + 1 => .inFirstLine (.keyword .orWord) "or" 3 :: chainOperand :: chainRest k

def chainTree (left : Node) : Nat → Node
  | 0 => left
  | k + 1 => chainTree (.binary (some ⟨1, 3⟩) "or" left (.name (some ⟨1, 1⟩) "x")) k

def chainProgram (k : Nat) : Program :=
  let n := chainTree (.name (some ⟨1, 1⟩) "x") k
  ⟨[.expression n.pos n]⟩

theorem height_chainTree (left : Node) (k : Nat) : (chainTree left k).height = left.height + k := by
  induction k generalizing left with
  | zero => rfl
  | succ k ih =>
    rw [chainTree, ih]
    simp only [Node.height, Node.depth, Node.step_one]
    omega

theorem height_chainProgram (k : Nat) : (chainProgram k).node.height = k + 2 := by
  have htree := height_chainTree (.name (some ⟨1, 1⟩) "x") k
  simp only [Node.height, node, chainProgram, Node.depth, Node.depths] at htree ⊢
  omega

section

variable {s : Surroundings} {c d : Cursor} {room : Nat} {N : Int}

theorem current_of_chainRest {k : Nat} (hp : c.Passes (chainRest k) d)
    (hd : d.current.kind = .endOfInput) :
    c.current.kind = .keyword .orWord ∨ c.current.kind = .endOfInput := by
  cases k with
  | zero =>
    obtain rfl : c = d := hp
    exact .inr hd
  | succ k => exact .inl (congrArg Token.kind hp.1)

theorem operand_chainOperand (hs : Rule.unary.Fits room s 1) (hf : s.inFunction = false)
    (hp : c.Passes [chainOperand] d)
    (hd : d.current.kind = .keyword .orWord ∨ d.current.kind = .endOfInput) :
    Grammar.operand (Rule.parse room) Level.ladder.tail s c =
      .ok (.name (some ⟨1, 1⟩) "x", d) := by
  have hunary : Rule.parse room .unary s c = .ok (.name (some ⟨1, 1⟩) "x", d) :=
    (Parsed.targetName (t := chainOperand) rfl) s room c d hf hs hp
      (by rcases hd with hd | hd <;> simp [hd])
  have hlength : 0 < s.length := Nat.zero_lt_of_lt hs.turns
  exact Grammar.operand_of_unary hlength hunary _ (by rcases hd with hd | hd <;> rw [hd] <;> decide)

theorem chainFrom_chainRest (hs : Rule.unary.Fits room s 1) (hf : s.inFunction = false) {k n : Nat}
    {left : Node} (hn : k < n) (hp : c.Passes (chainRest k) d) (hd : d.current.kind = .endOfInput) :
    Grammar.chainFrom Level.disjunction.operators
      (Grammar.operand (Rule.parse room) Level.ladder.tail) n left s c = .ok (chainTree left k, d) := by
  induction k generalizing n left c with
  | zero =>
    obtain rfl : c = d := hp
    exact Grammar.chainFrom_of hn (by rw [hd]; decide)
  | succ k ih =>
    obtain ⟨n, rfl⟩ : ∃ m, n = m + 1 := ⟨n - 1, by omega⟩
    obtain ⟨c₁, hp₁, hp⟩ := hp.cons_inv
    obtain ⟨c₂, hp₂, hp₃⟩ := hp.cons_inv
    have hoperand := operand_chainOperand hs hf hp₂ (current_of_chainRest hp₃ hd)
    rw [Grammar.chainFrom_succ hp₁ (by decide) hoperand]
    exact ih (by omega) hp₃

theorem declaration_chain {k length : Nat} (hN : 4 ≤ N) (hlength : k + 1 < length)
    (hp : c.Passes (chainOperand :: chainRest k) d) (hd : d.current.kind = .endOfInput) :
    Rule.parse (room + 10) .declaration ⟨N, 0, false, length⟩ c =
      .ok (.expression (chainTree (.name (some ⟨1, 1⟩) "x") k).pos
        (chainTree (.name (some ⟨1, 1⟩) "x") k), d) := by
  obtain ⟨c₁, hp₁, hp₂⟩ := hp.cons_inv
  have hc : c.current.kind = .identifier := congrArg Token.kind hp₁.1
  have hfits : Rule.unary.Fits (room + 6) ⟨N, 2, false, length⟩ 1 :=
    ⟨show (2 : Int) + 2 * 1 + 0 ≤ N by omega, Nat.le_add_left _ room, show 1 < length by omega⟩
  have hlevels : Grammar.operand (Rule.parse (room + 6)) Level.ladder ⟨N, 2, false, length⟩ c =
      .ok (chainTree (.name (some ⟨1, 1⟩) "x") k, d) := by
    have hfirst := operand_chainOperand hfits rfl hp₁ (current_of_chainRest hp₂ hd)
    change Grammar.chain _ (Grammar.operand (Rule.parse (room + 6)) Level.ladder.tail) _ c = _
    rw [Grammar.chain_apply, bind_apply, hfirst]
    exact chainFrom_chainRest hfits rfl (Nat.lt_of_succ_lt hlength) hp₂ hd
  have hexpression : Rule.parse (room + 8) .expression ⟨N, 1, false, length⟩ c =
      .ok (chainTree (.name (some ⟨1, 1⟩) "x") k, d) := by
    rw [Grammar.parse_expression (show (1 : Int) < N by omega), Grammar.parse_assignment]
    exact Grammar.assignment_of hlevels (by rw [hd]; decide)
  have hopens : c.current.kind ∈ Phrase.expressionOpenings := by
    rw [hc]
    decide
  have hend : Grammar.endStatement .expressionEnd ⟨N, 1, false, length⟩ d = .ok ((), d) :=
    Grammar.endStatement_of .omitted rfl (Follow.of_eq_ending.mpr (.inr hd))
  rw [Grammar.parse_declaration, Grammar.declaration_of_statement (by rw [hc]; decide)
    (fun h => by rw [hc] at h; cases h), Grammar.parse_statement (show (0 : Int) < N by omega),
    Grammar.statement_of_expression hopens]
  simp only [Grammar.expressionStatement, bind_apply, hexpression, hend, pure_apply]

end

theorem chainRest_ne_endOfInput (k : Nat) : ∀ t ∈ chainRest k, t.kind ≠ .endOfInput := by
  induction k with
  | zero => exact List.forall_mem_nil _
  | succ k ih =>
    exact List.forall_mem_cons.mpr ⟨by decide, List.forall_mem_cons.mpr ⟨by decide, ih⟩⟩

theorem chain_ne_endOfInput (k : Nat) : ∀ t ∈ chainOperand :: chainRest k, t.kind ≠ .endOfInput :=
  List.forall_mem_cons.mpr ⟨by decide, chainRest_ne_endOfInput k⟩

theorem length_chainRest (k : Nat) : (chainRest k).length = 2 * k := by
  induction k with
  | zero => rfl
  | succ k ih => simp only [chainRest, List.length_cons, ih]; omega

theorem ofTokens_chain (k room : Nat) {N : Int} (hN : 4 ≤ N) :
    ofTokens (room + 10) N ⟨chainOperand :: chainRest k, none⟩ = .ok (chainProgram k) := by
  have hlength : k + 1 < (chainOperand :: chainRest k).length + 1 := by
    rw [List.length_cons, length_chainRest]
    omega
  obtain ⟨c, hc, hfaces⟩ := Cursor.ofStream_faces_endOf (chainOperand :: chainRest k)
  rw [← List.append_nil (chainOperand :: chainRest k)] at hfaces
  obtain ⟨d, hp, hd⟩ := hfaces.passes (chain_ne_endOfInput k)
  have hend : d.current.kind = .endOfInput := by
    rw [hd.current_nil]
    exact Token.kind_endOf _
  have hfirst : c.current.kind = .identifier := congrArg Token.kind hp.1
  have hdeclaration : Rule.parse (room + 10) .declaration ⟨N, 0, false, _⟩ c = .ok (_, d) :=
    declaration_chain hN hlength hp hend
  have hdeclarations : declarations (room + 10) N ((chainOperand :: chainRest k).length + 1) c =
      .ok ((chainProgram k).statements, d) := by
    unfold declarations
    rw [Grammar.manyUntil_succ (by rw [hfirst]; decide) hdeclaration]
    exact Grammar.manyUntil_of (by simp) (by rw [hend]; decide)
  rw [ofTokens_eq hc, hdeclarations]
  rfl

def chainRestText : Nat → List Char
  | 0 => []
  | k + 1 => "or x ".toList ++ chainRestText k

def chainSource (k : Nat) : String :=
  .ofList ("x ".toList ++ chainRestText k)

theorem spaced_chainRest (k : Nat) : Spaced (chainRest k) (chainRestText k) := by
  have hgap : Separates [' '] := ⟨.blank rfl .nil, ' ', rfl, rfl⟩
  induction k with
  | zero => exact .nil
  | succ k ih => exact .cons _ (.inl hgap) (.cons _ (.inl hgap) ih)

theorem chainSource_ascii (k : Nat) : ∀ c ∈ (chainSource k).toList, c.toNat < 128 ∧ c ≠ '\r' := by
  have hrest : ∀ c ∈ chainRestText k, c.toNat < 128 ∧ c ≠ '\r' := by
    induction k with
    | zero => exact List.forall_mem_nil _
    | succ k ih => exact List.forall_mem_append.mpr ⟨by simp, ih⟩
  rw [chainSource, String.toList_ofList]
  exact List.forall_mem_append.mpr ⟨by simp, hrest⟩

theorem lexical_chainOperand : chainOperand.Lexical :=
  ⟨'x', [], rfl⟩

theorem lexical_chainRest (k : Nat) : ∀ t ∈ chainRest k, t.Lexical := by
  induction k with
  | zero => exact List.forall_mem_nil _
  | succ k ih =>
    exact List.forall_mem_cons.mpr
      ⟨⟨'o', ['r'], rfl⟩, List.forall_mem_cons.mpr ⟨lexical_chainOperand, ih⟩⟩

theorem exists_ofTokens_chainSource (k room : Nat) {N : Int} (hN : 4 ≤ N) :
    ∃ p, ofTokens (room + 10) N (.ofSource (chainSource k)) = .ok p ∧ p.node.height = k + 2 := by
  have hspaced : Spaced (chainOperand :: chainRest k) ("x ".toList ++ chainRestText k) :=
    .cons _ (.inl ⟨.blank rfl .nil, ' ', rfl, rfl⟩) (spaced_chainRest k)
  have hlexical : ∀ t ∈ chainOperand :: chainRest k, t.Lexical :=
    List.forall_mem_cons.mpr ⟨lexical_chainOperand, lexical_chainRest k⟩
  have hsource : (chainSource k).toList = [] ++ ("x ".toList ++ chainRestText k) :=
    String.toList_ofList
  obtain ⟨us, eof, hstream, hus, heof⟩ :=
    TokenStream.ofSource_of_spaced hlexical .nil hspaced hsource
  have htokens : List.Forall₂ (Token.Like .layout) (chainOperand :: chainRest k) us :=
    hus.imp fun _ _ ht => ⟨ht.kind, ht.text, ht.value, rfl⟩
  have hkinds : ∀ u ∈ us, u.kind ≠ .endOfInput := by
    have hmap : (chainOperand :: chainRest k).map Token.kind = us.map Token.kind :=
      List.forall₂_eq_eq_eq ▸ List.rel_map (fun _ _ h => h.kind) htokens
    intro u hu
    have hkind : u.kind ∈ us.map Token.kind := List.mem_map_of_mem hu
    rw [← hmap] at hkind
    obtain ⟨t, ht, hkind⟩ := List.mem_map.mp hkind
    exact hkind ▸ chain_ne_endOfInput k t ht
  have halike := parsedAlike (fun _ _ _ _ => rfl) rfl htokens (room + 10) N
  rw [ofTokens_chain k room hN] at halike
  -- The source ends with an end of the input, where the tokens of the chain are read without one.
  obtain ⟨p, hp, hp'⟩ | ⟨x, x', hx, hx', -⟩ := ofTokens_ends hkinds (room + 10) N heof
    (Token.kind_endOf us) (Cursor.ofStream_faces heof) (Cursor.ofStream_faces_endOf us)
    (s := ⟨us ++ [eof], none⟩) (by simp) (Nat.le_refl _)
  · rw [hp'] at halike
    cases halike with
    | program hns =>
      refine ⟨p, by rw [hstream, hp], ?_⟩
      have hlike : (chainProgram k).node.Like .layout p.node := .program rfl hns
      rw [← height_chainProgram k]
      exact (hlike.depth 1).symm
  · rw [hx'] at halike
    cases halike

end Program

end Scriptlet
