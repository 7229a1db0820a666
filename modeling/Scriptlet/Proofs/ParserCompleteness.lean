import Scriptlet.Proofs.ParserSteps

namespace Scriptlet

open Cursor Scriptlet.Parser Grammar

def Parsed (f : Bool) : (phrase : Phrase) → List Token → phrase.Tree → Prop
  | .primary, ts, n => ∀ s room c d, s.inFunction = f →
      Rule.unary.Fits (room + 1) s ts.length → c.Passes ts d →
      primary (Rule.parse room) s c = .ok (n, d)
  | .call, ts, n => ∃ j ≤ ts.length, ∀ s room c d k, s.inFunction = f →
      Rule.unary.Fits (room + 1) s ts.length → c.Passes ts d →
      (primary (Rule.parse room) >>= callsFrom (Rule.parse room) (j + k)) s c =
        callsFrom (Rule.parse room) k n s d
  | .unary, ts, n | .operation [], ts, n | .target, ts, n => ∀ s room c d, s.inFunction = f →
      Rule.unary.Fits room s ts.length → c.Passes ts d → d.current.kind ≠ .symbol .leftParen →
      Rule.parse room .unary s c = .ok (n, d)
  | .operation (l :: ls), ts, n => l :: ls <:+ Level.ladder → ∃ j ≤ ts.length,
      ∀ s room c d k, s.inFunction = f → Rule.unary.Fits room s ts.length → c.Passes ts d →
      d.current.kind ∉ (Phrase.operation ls).extensions →
      (operand (Rule.parse room) ls >>=
          chainFrom l.operators (operand (Rule.parse room) ls) (j + k)) s c =
        chainFrom l.operators (operand (Rule.parse room) ls) k n s d
  | .expression, ts, n => ∀ s room c d, s.inFunction = f →
      Rule.assignment.Fits room s ts.length → c.Passes ts d →
      d.current.kind ∉ Phrase.expression.extensions →
      Rule.parse room .assignment s c = .ok (n, d)
  | .arguments, ts, ns => ∀ s room c d, s.inFunction = f →
      Rule.expression.Fits room s ts.length → c.Passes ts d →
      d.current.kind = .symbol .rightParen → arguments (Rule.parse room) s c = .ok (ns, d)
  | .argumentRow, ts, ns => ∀ s room c d k acc, s.inFunction = f →
      Rule.expression.Fits room s ts.length → c.Passes ts d →
      d.current.kind = .symbol .rightParen → ts.length ≤ k →
      (do manyCommas (Rule.parse room .expression) k ((← Rule.parse room .expression) :: acc)) s c =
        .ok (acc.reverse ++ ns, d)
  | .definition pos name, ts, e => ∀ s room c d, s.inFunction = f →
      Rule.unary.Fits (room + 1) s ts.length → c.Passes ts d →
      definition (Rule.parse room) pos name s c = .ok (e, d)
  | .statement next, ts, n => ∀ s room c d, s.inFunction = f →
      Rule.statement.Fits room s ts.length → c.Passes ts d → Follow.of d.current.kind = next →
      Rule.parse room .statement s c = .ok (n, d)
  | .declaration next, ts, n => ∀ s room c d, s.inFunction = f →
      Rule.declaration.Fits room s ts.length → c.Passes ts d → Follow.of d.current.kind = next →
      Rule.parse room .declaration s c = .ok (n, d)
  | .declarations, ts, ns => ∀ s room c d k acc stops, s.inFunction = f →
      Rule.declaration.Fits room s ts.length → c.Passes ts d → ts.length < k →
      stops ⊆ [.symbol .rightBrace, .endOfInput] → d.current.kind ∈ stops →
      manyUntil stops (Rule.parse room .declaration) k acc s c = .ok (acc.reverse ++ ns, d)

namespace Parsed

variable {f : Bool} {ts us : List Token} {n : Node} {s : Surroundings} {c d : Cursor} {room : Nat}

theorem parse_expression_of (h : Parsed f .expression ts n) (hf : s.inFunction = f)
    (hfits : Rule.expression.Fits room s ts.length) (hp : c.Passes ts d)
    (hd : d.current.kind ∉ Phrase.expression.extensions) :
    Rule.parse room .expression s c = .ok (n, d) := by
  obtain ⟨room, rfl⟩ := hfits.exists_room
  obtain ⟨hn, hr, ht⟩ := hfits
  simp only [Rule.depth, Rule.rank] at hn hr
  rw [parse_expression (by omega)]
  refine h _ room c d hf ⟨?_, ?_, ht⟩ hp hd
  · simp only [Rule.depth]
    omega
  · simp only [Rule.rank]
    omega

theorem group {o t : Token} (ho : o.kind = .symbol .leftParen) (h : Parsed f .expression ts n)
    (ht : t.kind = .symbol .rightParen) : Parsed f .primary (o :: ts ++ [t]) n := by
  intro s room c d hf hfits hp
  have hc : c.current.kind = .symbol .leftParen := hp.1 ▸ ho
  rw [primary_eq_group hc]
  refine group_of hp ht fun c' d' hp' hd' => ?_
  refine h.parse_expression_of hf (hfits.behind (by grind) _) hp' ?_
  rw [hd']
  decide

theorem targetGroup {o t : Token} (ho : o.kind = .symbol .leftParen) (h : Parsed f .target ts n)
    (ht : t.kind = .symbol .rightParen) : Parsed f .target (o :: ts ++ [t]) n := by
  intro s room c d hf hfits hp hd
  obtain ⟨room, rfl⟩ := hfits.exists_room
  have hc : c.current.kind = .symbol .leftParen := hp.1 ▸ ho
  have hgroup : Grammar.group (Rule.parse room) s c = .ok (n, d) := by
    refine group_of hp ht fun c' d' hp' hd' => ?_
    have hinner := hfits.behind (m := ts.length) (by grind) .expression
    obtain ⟨room, rfl⟩ := hinner.exists_room
    obtain ⟨hn, hr, hturns⟩ := hinner
    simp only [Rule.depth, Rule.rank] at hn hr
    rw [parse_expression (by omega)]
    obtain ⟨room, rfl⟩ : ∃ r, room = r + 1 := ⟨room - 1, by omega⟩
    rw [parse_assignment]
    have hpos : 0 < s.length := by omega
    refine assignment_of (operand_of_unary (by exact hpos) ?_ _ ?_) ?_
    · refine h _ room c' d' hf ⟨?_, ?_, hturns⟩ hp' (by rw [hd']; decide) <;>
        simp only [Rule.depth, Rule.rank] <;> omega
    all_goals
      rw [hd']
      decide
  rw [parse_unary, unary_of (by rw [hc]; decide), bind_apply, primary_eq_group hc, hgroup]
  exact callsFrom_of (by have := hfits.turns; omega) hd

theorem targetName {t : Token} (ht : t.kind = .identifier) :
    Parsed f .target [t] (.name t.pos t.text) := by
  intro s room c d hf hfits hp hd
  obtain ⟨room, rfl⟩ := hfits.exists_room
  have hc : c.current.kind = .identifier := hp.1 ▸ ht
  rw [parse_unary, unary_of (by rw [hc]; decide), bind_apply, primary_of_name ht hp]
  exact callsFrom_of (by have := hfits.turns; omega) hd

theorem lambda {t : Token} {e : Definition} (ht : t.kind = .keyword .funWord)
    (h : Parsed f (.definition t.pos none) ts e) : Parsed f .primary (t :: ts) (.function e) := by
  intro s room c d hf hfits hp
  obtain ⟨c₁, hp₁, hp₂⟩ := hp.cons_inv
  exact primary_of_lambda ht hp₁ (h s room c₁ d hf (hfits.mono (by simp)) hp₂)

theorem callee (h : Parsed f .primary ts n) : Parsed f .call ts n := by
  refine ⟨0, Nat.zero_le _, fun s room c d k hf hfits hp => ?_⟩
  rw [bind_apply, h s room c d hf hfits hp, Nat.zero_add]

theorem call {o t : Token} {ns : List Node} (h : Parsed f .call ts n)
    (ho : o.kind = .symbol .leftParen) (hs : Parsed f .arguments us ns)
    (ht : t.kind = .symbol .rightParen) :
    Parsed f .call (ts ++ o :: us ++ [t]) (.call o.pos n ns) := by
  obtain ⟨j, hj, h⟩ := h
  refine ⟨j + 1, by grind, fun s room c d k hf hfits hp => ?_⟩
  obtain ⟨c₃, hp, hp₃⟩ := passes_append.mp hp
  obtain ⟨c₁, hp₁, hp⟩ := passes_append.mp hp
  obtain ⟨c₂, ho', hp₂⟩ := hp.cons_inv
  have hc₁ : c₁.current.kind = .symbol .leftParen := ho'.1 ▸ ho
  have hc₃ : c₃.current.kind = .symbol .rightParen := hp₃.1 ▸ ht
  have hargs := hs s room c₂ c₃ hf (hfits.behind (by grind) _) hp₂ hc₃
  rw [Nat.add_assoc, Nat.add_comm 1 k, h s room c c₁ (k + 1) hf (hfits.mono (by simp)) hp₁]
  exact callsFrom_succ ho' ho hargs hp₃ ht

theorem noArguments : Parsed f .arguments [] [] := by
  intro s room c d hf hfits hp hd
  rw [passes_nil] at hp
  subst hp
  unfold Grammar.arguments
  rw [bind_apply, currentKind_apply]
  simp only [hd, if_true, pure_apply]

theorem arguments {ns : List Node} (hts : OpensWith Phrase.expressionOpenings ts)
    (h : Parsed f .argumentRow ts ns) : Parsed f .arguments ts ns := by
  intro s room c d hf hfits hp hd
  obtain ⟨t, us, rfl, ht⟩ := hts
  have hc : c.current.kind ≠ .symbol .rightParen := by
    rw [hp.1]
    rintro h
    rw [h] at ht
    revert ht
    decide
  unfold Grammar.arguments
  rw [bind_apply, currentKind_apply]
  simp only [hc, if_false]
  exact h s room c d s.length [] hf hfits hp hd (Nat.le_of_lt hfits.turns)

theorem lastArgument (h : Parsed f .expression ts n) (hts : ts ≠ []) :
    Parsed f .argumentRow ts [n] := by
  intro s room c d k acc hf hfits hp hd hk
  have hpos : 0 < k := Nat.lt_of_lt_of_le (List.length_pos_iff.mpr hts) hk
  rw [bind_apply, h.parse_expression_of hf hfits hp (by rw [hd]; decide)]
  change manyCommas _ k (n :: acc) s d = _
  rw [manyCommas_of hpos (by rw [hd]; decide), List.reverse_cons]

theorem moreArguments {t : Token} {ns : List Node} (h : Parsed f .expression ts n)
    (ht : t.kind = .symbol .comma) (hs : Parsed f .argumentRow us ns) :
    Parsed f .argumentRow (ts ++ t :: us) (n :: ns) := by
  intro s room c d k acc hf hfits hp hd hk
  obtain ⟨c₁, hp₁, hp⟩ := passes_append.mp hp
  obtain ⟨c₂, ht', hp₂⟩ := hp.cons_inv
  have hc₁ : c₁.current.kind = .symbol .comma := ht'.1 ▸ ht
  simp only [List.length_append, List.length_cons] at hk
  obtain ⟨k, rfl⟩ : ∃ j, k = j + 1 := ⟨k - 1, by omega⟩
  rw [bind_apply, h.parse_expression_of hf (hfits.mono (by simp)) hp₁ (by rw [hc₁]; decide)]
  change manyCommas _ (k + 1) (n :: acc) s c₁ = _
  rw [manyCommas_succ ht' ht]
  have htail := hs s room c₂ d k (n :: acc) hf (hfits.mono (by grind)) hp₂ hd (by omega)
  rw [htail, List.reverse_cons, List.append_assoc, List.singleton_append]

theorem plain (hts : OpensWith Phrase.operandOpenings ts) (h : Parsed f .call ts n) :
    Parsed f .unary ts n := by
  intro s room c d hf hfits hp hd
  obtain ⟨room, rfl⟩ := hfits.exists_room
  obtain ⟨j, hj, h⟩ := h
  obtain ⟨t, us, rfl, ht⟩ := hts
  have hturns := hfits.turns
  obtain ⟨k, hk⟩ : ∃ k, s.length = j + k := ⟨s.length - j, by omega⟩
  rw [parse_unary, unary_of (hp.1 ▸ ht), hk, h s room c d k hf hfits hp]
  exact callsFrom_of (by omega) hd

theorem unary {t : Token} (ht : t.kind = .keyword .notWord ∨ t.kind = .symbol .minus)
    (h : Parsed f .unary ts n) : Parsed f .unary (t :: ts) (.unary t.pos t.text n) := by
  intro s room c d hf hfits hp hd
  obtain ⟨room, rfl⟩ := hfits.exists_room
  obtain ⟨c₁, hp₁, hp₂⟩ := hp.cons_inv
  have hc : c.current.kind = .keyword .notWord ∨ c.current.kind = .symbol .minus := hp₁.1 ▸ ht
  obtain ⟨hn, hr, hturns⟩ := hfits
  simp only [Rule.depth, Rule.rank, List.length_cons] at hn hr hturns
  have hinner : Rule.parse room .unary { s with nesting := s.nesting + 1 } c₁ = .ok (n, d) := by
    refine h _ room c₁ d hf ?_ hp₂ hd
    refine ⟨?_, ?_, Nat.lt_of_succ_lt hturns⟩ <;> simp only [Rule.depth, Rule.rank] <;> omega
  rw [parse_unary, Grammar.unary, bind_apply, currentKind_apply]
  simp only [hc, if_true, bind_apply, take_of hp₁, nested_of (s := s) (show _ < _ by omega), hinner,
    pure_apply]

theorem operand_of {ls : List Level} (h : Parsed f (.operation ls) ts n) (hls : ls <:+ Level.ladder)
    (hf : s.inFunction = f) (hfits : Rule.unary.Fits room s ts.length) (hp : c.Passes ts d)
    (hd : d.current.kind ∉ (Phrase.operation ls).extensions) :
    Grammar.operand (Rule.parse room) ls s c = .ok (n, d) := by
  cases ls with
  | nil => exact h s room c d hf hfits hp fun h => hd (List.mem_singleton.mpr h)
  | cons l ls =>
    obtain ⟨j, hj, h⟩ := h hls
    have hturns := hfits.turns
    obtain ⟨k, hk⟩ : ∃ k, s.length = j + k := ⟨s.length - j, by omega⟩
    simp only [Phrase.extensions, List.flatMap_cons, List.mem_cons, List.mem_append, not_or] at hd
    change chain l.operators (Grammar.operand (Rule.parse room) ls) s c = _
    rw [chain_apply, hk, h s room c d k hf hfits hp]
    · exact chainFrom_of (by omega) hd.2.1
    · simp only [Phrase.extensions, List.mem_cons, not_or]
      exact ⟨hd.1, hd.2.2⟩

theorem operand {l : Level} {ls : List Level} (h : Parsed f (.operation ls) ts n) :
    Parsed f (.operation (l :: ls)) ts n := by
  intro hls
  refine ⟨0, Nat.zero_le _, fun s room c d k hf hfits hp hd => ?_⟩
  have hls' : ls <:+ Level.ladder := (List.suffix_cons l ls).trans hls
  rw [bind_apply, h.operand_of hls' hf hfits hp hd, Nat.zero_add]

theorem binary {l : Level} {ls : List Level} {t : Token} {m : Node}
    (h : Parsed f (.operation (l :: ls)) ts n) (ht : t.kind ∈ l.operators)
    (h' : Parsed f (.operation ls) us m) :
    Parsed f (.operation (l :: ls)) (ts ++ t :: us) (.binary t.pos t.text n m) := by
  intro hls
  obtain ⟨j, hj, h⟩ := h hls
  refine ⟨j + 1, by grind, fun s room c d k hf hfits hp hd => ?_⟩
  obtain ⟨c₁, hp₁, hp⟩ := passes_append.mp hp
  obtain ⟨c₂, ht', hp₂⟩ := hp.cons_inv
  have hls' : ls <:+ Level.ladder := (List.suffix_cons l ls).trans hls
  have hc₁ : c₁.current.kind ∉ (Phrase.operation ls).extensions :=
    ht'.1 ▸ operators_disjoint hls ht
  have hright := h'.operand_of hls' hf (hfits.mono (by grind)) hp₂ hd
  rw [Nat.add_assoc, Nat.add_comm 1 k, h s room c c₁ (k + 1) hf (hfits.mono (by simp)) hp₁ hc₁]
  exact chainFrom_succ ht' ht hright

theorem operation (h : Parsed f (.operation Level.ladder) ts n) : Parsed f .expression ts n := by
  intro s room c d hf hfits hp hd
  obtain ⟨room, rfl⟩ := hfits.exists_room
  obtain ⟨hn, hr, hturns⟩ := hfits
  simp only [Rule.depth, Rule.rank] at hn hr
  rw [parse_assignment]
  refine assignment_of (h.operand_of (List.suffix_refl _) hf ?_ hp ?_) hd
  · refine ⟨?_, ?_, by omega⟩ <;> simp only [Rule.depth, Rule.rank] <;> omega
  · exact fun h => hd (List.mem_cons_of_mem _ h)

theorem assign {t : Token} {pos : Option Position} {x : String}
    (h : Parsed f .target ts (.name pos x)) (ht : t.kind = .symbol .equal)
    (hn : Parsed f .expression us n) : Parsed f .expression (ts ++ t :: us) (.assign pos x n) := by
  intro s room c d hf hfits hp hd
  obtain ⟨room, rfl⟩ := hfits.exists_room
  obtain ⟨c₁, hp₁, hp⟩ := passes_append.mp hp
  obtain ⟨c₂, ht', hp₂⟩ := hp.cons_inv
  have hc₁ : c₁.current.kind = .symbol .equal := ht'.1 ▸ ht
  obtain ⟨hnest, hr, hturns⟩ := hfits
  simp only [Rule.depth, Rule.rank, List.length_append, List.length_cons] at hnest hr hturns
  rw [parse_assignment]
  refine assignment_of_target (operand_of_unary (by omega) (h s room c c₁ hf ?_ hp₁ ?_) _ ?_) ht' ht
    (hn s room c₂ d hf ?_ hp₂ hd)
  · refine ⟨?_, ?_, by omega⟩ <;> simp only [Rule.depth, Rule.rank] <;> omega
  · rw [hc₁]
    decide
  · rw [hc₁]
    decide
  · refine ⟨?_, ?_, by omega⟩ <;> simp only [Rule.depth, Rule.rank] <;> omega

theorem body {o t : Token} {ns : List Node} (ho : o.kind = .symbol .leftBrace)
    (h : Parsed f .declarations ts ns) (ht : t.kind = .symbol .rightBrace) (hf : s.inFunction = f)
    (hfits : Rule.declaration.Fits room { s with nesting := s.nesting + 1 } ts.length)
    (hp : c.Passes (o :: ts ++ [t]) d) :
    Grammar.body (Rule.parse room) s c = .ok ((o.pos, ns), d) := by
  obtain ⟨hn, hr, hturns⟩ := hfits
  simp only [Rule.depth] at hn
  refine body_of ho (by omega) hp ht fun c d hp hd => ?_
  refine h { s with nesting := s.nesting + 1 } room c d _ [] _ hf ⟨?_, hr, hturns⟩ hp hturns
    (List.Subset.refl _) (by rw [hd]; decide)
  simp only [Rule.depth]
  omega

theorem definition {pos : Position} {name : Option String} {po pc bo bc : Token} {xs : List String}
    {ns : List Node} (hpo : po.kind = .symbol .leftParen) (hxs : Parameters ts xs)
    (hpc : pc.kind = .symbol .rightParen) (hbo : bo.kind = .symbol .leftBrace)
    (hns : Parsed true .declarations us ns) (hbc : bc.kind = .symbol .rightBrace) :
    Parsed f (.definition pos name) (po :: ts ++ pc :: bo :: us ++ [bc])
      ⟨pos, name, xs, bo.pos, ns⟩ := by
  intro s room c d hf hfits hp
  have hsplit : po :: ts ++ pc :: bo :: us ++ [bc] = (po :: ts ++ [pc]) ++ (bo :: us ++ [bc]) := by
    simp
  rw [hsplit] at hp hfits
  obtain ⟨c₁, hp₁, hp₂⟩ := passes_append.mp hp
  obtain ⟨hn, hr, hturns⟩ := hfits
  simp only [Rule.depth, Rule.rank, List.length_append, List.length_cons, List.length_nil]
    at hn hr hturns
  have hparams : parameters s c = .ok (xs, c₁) := parameters_of hpo hxs hpc (by omega) hp₁
  have hbody : Grammar.body (Rule.parse room) { s with inFunction := true } c₁ =
      .ok ((bo.pos, ns), d) := by
    refine hns.body hbo hbc rfl ⟨?_, ?_, by exact Nat.lt_of_le_of_lt (by omega) hturns⟩ hp₂ <;>
      simp only [Rule.depth, Rule.rank] <;> omega
  simp only [Grammar.definition, bind_apply, hparams, inFunction_apply, hbody, pure_apply]

theorem expressionStatement {next : Follow} {es : List Token}
    (hts : OpensWith Phrase.expressionOpenings ts) (h : Parsed f .expression ts n)
    (he : Terminator next es) : Parsed f (.statement next) (ts ++ es) (.expression n.pos n) := by
  intro s room c d hf hfits hp hd
  obtain ⟨room, rfl⟩ := hfits.exists_room
  obtain ⟨c₁, hp₁, hp₂⟩ := passes_append.mp hp
  have hc₁ := kind_of_terminator he hp₂ hd
  obtain ⟨t, us, rfl, ht⟩ := hts
  obtain ⟨hn, hr, hturns⟩ := hfits.mono (m := (t :: us).length) (by simp)
  simp only [Rule.depth, Rule.rank] at hn hr
  have hexpr : Rule.parse room .expression { s with nesting := s.nesting + 1 } c = .ok (n, c₁) := by
    refine h.parse_expression_of hf ⟨?_, ?_, hturns⟩ hp₁ ?_
    · simp only [Rule.depth]
      omega
    · simp only [Rule.rank]
      omega
    · revert hc₁
      generalize c₁.current.kind = k
      revert k
      decide
  rw [parse_statement (by omega), statement_of_expression (hp₁.1 ▸ ht)]
  simp only [Grammar.expressionStatement, bind_apply, hexpr, endStatement_of he hp₂ hd, pure_apply]

theorem ret {next : Follow} {t : Token} {es : List Token} (ht : t.kind = .keyword .returnWord)
    (he : Terminator next es) : Parsed true (.statement next) (t :: es) (.ret t.pos none) := by
  intro s room c d hf hfits hp hd
  obtain ⟨room, rfl⟩ := hfits.exists_room
  obtain ⟨c₁, hp₁, hp₂⟩ := hp.cons_inv
  have hn := hfits.nesting
  simp only [Rule.depth] at hn
  have hvalue : returnValue (Rule.parse room) { s with nesting := s.nesting + 1 } c₁ =
      .ok (none, c₁) := by
    have hc₁ := kind_of_terminator he hp₂ hd
    simp only [List.mem_cons, List.not_mem_nil, or_false] at hc₁
    rw [returnValue, bind_apply, currentKind_apply]
    simp only [hc₁, if_true, pure_apply]
  have hc : c.current.kind = .keyword .returnWord := hp₁.1 ▸ ht
  rw [parse_statement (by omega), Grammar.statement, bind_apply, currentKind_apply]
  simp only [hc]
  exact returnStatement_of hf hp₁ hvalue he hp₂ hd

theorem retValue {next : Follow} {t : Token} {es : List Token} (ht : t.kind = .keyword .returnWord)
    (hts : OpensWith Phrase.expressionOpenings ts) (h : Parsed true .expression ts n)
    (he : Terminator next es) :
    Parsed true (.statement next) (t :: ts ++ es) (.ret t.pos (some n)) := by
  intro s room c d hf hfits hp hd
  obtain ⟨room, rfl⟩ := hfits.exists_room
  obtain ⟨c₂, hp, hp₃⟩ := passes_append.mp hp
  obtain ⟨c₁, hp₁, hp₂⟩ := hp.cons_inv
  have hn := hfits.nesting
  simp only [Rule.depth] at hn
  have hc₂ := kind_of_terminator he hp₃ hd
  have hexpr : Rule.parse room .expression { s with nesting := s.nesting + 1 } c₁ = .ok (n, c₂) := by
    refine h.parse_expression_of hf (hfits.inside (by grind) _) hp₂ ?_
    revert hc₂
    generalize c₂.current.kind = k
    revert k
    decide
  have hvalue : returnValue (Rule.parse room) { s with nesting := s.nesting + 1 } c₁ =
      .ok (some n, c₂) := by
    obtain ⟨u, us, rfl, hu⟩ := hts
    rw [returnValue_of_expression (hp₂.1 ▸ hu)]
    exact map_some_of hexpr
  have hc : c.current.kind = .keyword .returnWord := hp₁.1 ▸ ht
  rw [parse_statement (by omega), Grammar.statement, bind_apply, currentKind_apply]
  simp only [hc]
  exact returnStatement_of hf hp₁ hvalue he hp₃ hd

theorem block {next : Follow} {o t : Token} {ns : List Node} (ho : o.kind = .symbol .leftBrace)
    (h : Parsed f .declarations ts ns) (ht : t.kind = .symbol .rightBrace) :
    Parsed f (.statement next) (o :: ts ++ [t]) (.block o.pos ns) := by
  intro s room c d hf hfits hp hd
  obtain ⟨room, rfl⟩ := hfits.exists_room
  have hc : c.current.kind = .symbol .leftBrace := hp.1 ▸ ho
  obtain ⟨hn, hr, hturns⟩ := hfits
  simp only [Rule.depth, Rule.rank, List.length_append, List.length_cons, List.length_nil]
    at hn hr hturns
  have hbody : Grammar.body (Rule.parse room) { s with nesting := s.nesting + 1 } c =
      .ok ((o.pos, ns), d) := by
    refine h.body ho ht hf ⟨?_, ?_, by exact Nat.lt_of_le_of_lt (by omega) hturns⟩ hp <;>
      simp only [Rule.depth, Rule.rank] <;> omega
  rw [parse_statement (by omega), Grammar.statement, bind_apply, currentKind_apply]
  simp only [hc, Grammar.block, bind_apply, hbody, pure_apply]

theorem oneBranch {next : Follow} {i t : Token} {cs : List Token} {cond : Node}
    (hi : i.kind = .keyword .ifWord) (hc : Parsed f .expression cs cond)
    (ht : t.kind = .keyword .thenWord) (h : Parsed f (.statement next) ts n)
    (hnext : next ≠ .otherBranch) :
    Parsed f (.statement next) (i :: cs ++ t :: ts) (.conditional i.pos cond n none) := by
  intro s room c d hf hfits hp hd
  obtain ⟨room, rfl⟩ := hfits.exists_room
  obtain ⟨c₂, hp, hp₃⟩ := passes_append.mp hp
  obtain ⟨c₁, hp₁, hp₂⟩ := hp.cons_inv
  obtain ⟨c₃, ht', hp₄⟩ := hp₃.cons_inv
  have hn := hfits.nesting
  simp only [Rule.depth] at hn
  have hc₂ : c₂.current.kind = .keyword .thenWord := ht'.1 ▸ ht
  have hcond := hc.parse_expression_of (s := { s with nesting := s.nesting + 1 }) hf
    (hfits.inside (by grind) _) hp₂ (by rw [hc₂]; decide)
  have hthen := h { s with nesting := s.nesting + 1 } room c₃ d hf
    (hfits.inside (by grind) _) hp₄ hd
  have helse : d.current.kind ≠ .keyword .elseWord := fun h =>
    hnext (hd ▸ Follow.of_eq_otherBranch.mpr h)
  have hcur : c.current.kind = .keyword .ifWord := hp₁.1 ▸ hi
  rw [parse_statement (by omega), Grammar.statement, bind_apply, currentKind_apply]
  simp only [hcur, conditional, elseBranch, bind_apply, take_of hp₁, hcond, require_of ht' ht, hthen,
    accept_of_ne helse, Bool.false_eq_true, if_false, pure_apply]

theorem twoBranches {next : Follow} {i t e : Token} {cs : List Token} {cond m : Node}
    (hi : i.kind = .keyword .ifWord) (hc : Parsed f .expression cs cond)
    (ht : t.kind = .keyword .thenWord) (h : Parsed f (.statement .otherBranch) ts n)
    (he : e.kind = .keyword .elseWord) (hm : Parsed f (.statement next) us m) :
    Parsed f (.statement next) (i :: cs ++ t :: ts ++ e :: us)
      (.conditional i.pos cond n (some m)) := by
  intro s room c d hf hfits hp hd
  obtain ⟨room, rfl⟩ := hfits.exists_room
  obtain ⟨c₄, hp, hp₅⟩ := passes_append.mp hp
  obtain ⟨c₂, hp, hp₃⟩ := passes_append.mp hp
  obtain ⟨c₁, hp₁, hp₂⟩ := hp.cons_inv
  obtain ⟨c₃, ht', hp₄⟩ := hp₃.cons_inv
  obtain ⟨c₅, he', hp₆⟩ := hp₅.cons_inv
  have hn := hfits.nesting
  simp only [Rule.depth] at hn
  have hc₂ : c₂.current.kind = .keyword .thenWord := ht'.1 ▸ ht
  have hc₄ : c₄.current.kind = .keyword .elseWord := he'.1 ▸ he
  have hcond := hc.parse_expression_of (s := { s with nesting := s.nesting + 1 }) hf
    (hfits.inside (by grind) _) hp₂ (by rw [hc₂]; decide)
  have hthen := h { s with nesting := s.nesting + 1 } room c₃ c₄ hf
    (hfits.inside (by grind) _) hp₄ (Follow.of_eq_otherBranch.mpr hc₄)
  have hother := hm { s with nesting := s.nesting + 1 } room c₅ d hf
    (hfits.inside (by grind) _) hp₆ hd
  have hcur : c.current.kind = .keyword .ifWord := hp₁.1 ▸ hi
  rw [parse_statement (by omega), Grammar.statement, bind_apply, currentKind_apply]
  simp only [hcur, conditional, elseBranch, bind_apply, take_of hp₁, hcond, require_of ht' ht, hthen,
    accept_of he' he, if_true, map_some_of hother, pure_apply]

theorem loop {next : Follow} {w t : Token} {cs : List Token} {cond : Node}
    (hw : w.kind = .keyword .whileWord) (hc : Parsed f .expression cs cond)
    (ht : t.kind = .keyword .doWord) (h : Parsed f (.statement next) ts n) :
    Parsed f (.statement next) (w :: cs ++ t :: ts) (.loop w.pos cond n) := by
  intro s room c d hf hfits hp hd
  obtain ⟨room, rfl⟩ := hfits.exists_room
  obtain ⟨c₂, hp, hp₃⟩ := passes_append.mp hp
  obtain ⟨c₁, hp₁, hp₂⟩ := hp.cons_inv
  obtain ⟨c₃, ht', hp₄⟩ := hp₃.cons_inv
  have hn := hfits.nesting
  simp only [Rule.depth] at hn
  have hc₂ : c₂.current.kind = .keyword .doWord := ht'.1 ▸ ht
  have hcond := hc.parse_expression_of (s := { s with nesting := s.nesting + 1 }) hf
    (hfits.inside (by grind) _) hp₂ (by rw [hc₂]; decide)
  have hbody := h { s with nesting := s.nesting + 1 } room c₃ d hf
    (hfits.inside (by grind) _) hp₄ hd
  have hcur : c.current.kind = .keyword .whileWord := hp₁.1 ▸ hw
  rw [parse_statement (by omega), Grammar.statement, bind_apply, currentKind_apply]
  simp only [hcur, Grammar.loop, bind_apply, take_of hp₁, hcond, require_of ht' ht, hbody,
    pure_apply]

theorem statement {next : Follow} (hts : OpensWith Phrase.statementOpenings ts)
    (hfun : FunctionsOpen ts) (h : Parsed f (.statement next) ts n) :
    Parsed f (.declaration next) ts n := by
  intro s room c d hf hfits hp hd
  obtain ⟨room, rfl⟩ := hfits.exists_room
  obtain ⟨hn, hr, hturns⟩ := hfits
  simp only [Rule.depth, Rule.rank] at hn hr
  obtain ⟨t, us, rfl, ht⟩ := hts
  rw [parse_declaration, declaration_of_statement]
  · refine h s room c d hf ⟨?_, ?_, hturns⟩ hp hd <;> simp only [Rule.depth, Rule.rank] <;> omega
  · rw [hp.1]
    rintro h
    rw [h] at ht
    revert ht
    decide
  · intro hc
    obtain ⟨u, hu, hk⟩ := hfun t rfl (hp.1 ▸ hc)
    cases us with
    | nil => simp at hu
    | cons u' us =>
      obtain rfl : u' = u := by simpa using hu
      rw [hp.next, hk]
      decide

theorem declareVar {next : Follow} {v x eq : Token} {es : List Token}
    (hv : v.kind = .keyword .varWord) (hx : x.kind = .identifier) (heq : eq.kind = .symbol .equal)
    (h : Parsed f .expression ts n) (he : Terminator next es) :
    Parsed f (.declaration next) (v :: x :: eq :: ts ++ es) (.declareVar v.pos x.text n) := by
  intro s room c d hf hfits hp hd
  obtain ⟨room, rfl⟩ := hfits.exists_room
  obtain ⟨c₄, hp, hp₅⟩ := passes_append.mp hp
  obtain ⟨c₁, hp₁, hp⟩ := hp.cons_inv
  obtain ⟨c₂, hp₂, hp⟩ := hp.cons_inv
  obtain ⟨c₃, hp₃, hp₄⟩ := hp.cons_inv
  have hc₄ := kind_of_terminator he hp₅ hd
  obtain ⟨hn, hr, hturns⟩ := hfits
  simp only [Rule.depth, Rule.rank, List.length_append, List.length_cons] at hn hr hturns
  have hexpr : Rule.parse room .expression s c₃ = .ok (n, c₄) := by
    refine h.parse_expression_of hf ⟨?_, ?_, by omega⟩ hp₄ ?_
    · simp only [Rule.depth]
      omega
    · simp only [Rule.rank]
      omega
    · revert hc₄
      generalize c₄.current.kind = k
      revert k
      decide
  have hc : c.current.kind = .keyword .varWord := hp₁.1 ▸ hv
  rw [parse_declaration, declaration, bind_apply, currentKind_apply]
  simp only [hc, bind_apply, nextKind_apply, reduceCtorEq, TokenKind.keyword.injEq, false_and,
    if_false, if_true, varDeclaration, take_of hp₁, require_of hp₂ hx, require_of hp₃ heq, hexpr,
    endStatement_of he hp₅ hd, pure_apply]

theorem declareFunction {next : Follow} {k x : Token} {e : Definition}
    (hk : k.kind = .keyword .funWord) (hx : x.kind = .identifier)
    (h : Parsed f (.definition k.pos (some x.text)) ts e) :
    Parsed f (.declaration next) (k :: x :: ts) (.declareFunction k.pos e) := by
  intro s room c d hf hfits hp hd
  obtain ⟨room, rfl⟩ := hfits.exists_room
  have hnext : c.next = x := hp.next
  obtain ⟨c₁, hp₁, hp⟩ := hp.cons_inv
  obtain ⟨c₂, hp₂, hp₃⟩ := hp.cons_inv
  obtain ⟨hn, hr, hturns⟩ := hfits
  simp only [Rule.depth, Rule.rank, List.length_cons] at hn hr hturns
  have hdef : Grammar.definition (Rule.parse room) k.pos (some x.text) s c₂ = .ok (e, d) := by
    refine h s room c₂ d hf ⟨?_, ?_, by omega⟩ hp₃ <;>
      simp only [Rule.depth, Rule.rank] <;> omega
  have hc : c.current.kind = .keyword .funWord := hp₁.1 ▸ hk
  rw [parse_declaration, declaration, bind_apply, currentKind_apply]
  simp only [hc, bind_apply, nextKind_apply, hnext, hx, and_self, if_true, functionDeclaration,
    take_of hp₁, take_of hp₂, hdef, pure_apply]

theorem noDeclarations : Parsed f .declarations [] [] := by
  intro s room c d k acc stops hf hfits hp hk hstops hd
  rw [passes_nil] at hp
  subst hp
  rw [manyUntil_of (by omega) hd, List.append_nil]

theorem not_mem_stops {stops : List TokenKind} {kinds : List TokenKind}
    (hkinds : kinds ⊆ (Phrase.declaration .another).openings)
    (hstops : stops ⊆ [.symbol .rightBrace, .endOfInput]) {k : TokenKind} (hk : k ∈ kinds) :
    k ∉ stops := by
  have hall : ∀ k ∈ (Phrase.declaration .another).openings,
      k ∉ [TokenKind.symbol .rightBrace, .endOfInput] := by decide
  exact fun h => hall k (hkinds hk) (hstops h)

theorem lastDeclaration (hts : OpensWith (Phrase.declaration .ending).openings ts)
    (h : Parsed f (.declaration .ending) ts n) : Parsed f .declarations ts [n] := by
  intro s room c d k acc stops hf hfits hp hk hstops hd
  obtain ⟨t, us, rfl, ht⟩ := hts
  obtain ⟨k, rfl⟩ : ∃ j, k = j + 1 := ⟨k - 1, by simp only [List.length_cons] at hk; omega⟩
  have hc : c.current.kind ∉ stops := hp.1 ▸ not_mem_stops (List.Subset.refl _) hstops ht
  have hend : Follow.of d.current.kind = .ending := by
    rw [Follow.of_eq_ending]
    simpa using hstops hd
  simp only [List.length_cons] at hk
  rw [manyUntil_succ hc (h s room c d hf hfits hp hend), manyUntil_of (by omega) hd,
    List.reverse_cons]

theorem moreDeclarations {ns : List Node} (hts : OpensWith (Phrase.declaration .another).openings ts)
    (hus : OpensWith Phrase.declarations.openings us) (h : Parsed f (.declaration .another) ts n)
    (hs : Parsed f .declarations us ns) : Parsed f .declarations (ts ++ us) (n :: ns) := by
  intro s room c d k acc stops hf hfits hp hk hstops hd
  obtain ⟨c₁, hp₁, hp₂⟩ := passes_append.mp hp
  obtain ⟨t, ts, rfl, ht⟩ := hts
  obtain ⟨u, us, rfl, hu⟩ := hus
  simp only [List.length_append, List.length_cons] at hk
  obtain ⟨k, rfl⟩ : ∃ j, k = j + 1 := ⟨k - 1, by omega⟩
  have hc : c.current.kind ∉ stops := hp₁.1 ▸ not_mem_stops (List.Subset.refl _) hstops ht
  have hanother : Follow.of c₁.current.kind = .another := by
    have hall : ∀ k ∈ (Phrase.declaration .another).openings, Follow.of k = .another := by decide
    exact hall _ (hp₂.1 ▸ hu)
  have hfirst := h s room c c₁ hf (hfits.mono (by simp)) hp₁ hanother
  have hrest := hs s room c₁ d k (n :: acc) stops hf (hfits.mono (by grind)) hp₂
    (by simp only [List.length_cons]; omega) hstops hd
  rw [manyUntil_succ hc hfirst, hrest, List.reverse_cons, List.append_assoc, List.singleton_append]

end Parsed

theorem Derives.parsed {f : Bool} {phrase : Phrase} {ts : List Token} {tree : phrase.Tree}
    (h : Derives f phrase ts tree) : Parsed f phrase ts tree := by
  induction h with
  | literal ht => exact fun _ _ _ _ _ _ hp => primary_of_literal ht hp
  | truth ht => exact fun _ _ _ _ _ _ hp => primary_of_word ht (by simp) hp
  | falsity ht => exact fun _ _ _ _ _ _ hp => primary_of_word ht (by simp) hp
  | nil ht => exact fun _ _ _ _ _ _ hp => primary_of_word ht (by simp) hp
  | name ht => exact fun _ _ _ _ _ _ hp => primary_of_name ht hp
  | group ho _ hc ih => exact ih.group ho hc
  | lambda ht _ ih => exact ih.lambda ht
  | callee _ ih => exact ih.callee
  | call _ ho _ hc ih ihs => exact ih.call ho ihs hc
  | noArguments => exact .noArguments
  | arguments h ih => exact ih.arguments (h.opensWith (.inl rfl))
  | lastArgument h ih => exact ih.lastArgument (h.opensWith (.inl rfl)).ne_nil
  | moreArguments _ hc _ ih ihs => exact ih.moreArguments hc ihs
  | plain h ih => exact ih.plain (h.opensWith (.inl rfl))
  | unary hop _ ih => exact ih.unary hop
  | tightest _ ih => exact ih
  | operand _ ih => exact ih.operand
  | binary _ hop _ ih ihs => exact ih.binary hop ihs
  | targetName ht => exact .targetName ht
  | targetGroup ho _ hc ih => exact ih.targetGroup ho hc
  | operation _ ih => exact ih.operation
  | assign _ heq _ ih ihs => exact ih.assign heq ihs
  | definition hpo hxs hpc hbo _ hbc ih => exact .definition hpo hxs hpc hbo ih hbc
  | expression h he ih => exact ih.expressionStatement (h.opensWith (.inl rfl)) he
  | ret ht he => exact .ret ht he
  | retValue ht h he ih => exact ih.retValue ht (h.opensWith (.inl rfl)) he
  | block ho _ hc ih => exact ih.block ho hc
  | oneBranch hi _ ht _ hnext ihc ih => exact ihc.oneBranch hi ht ih hnext
  | twoBranches hi _ ht _ he _ ihc ih ihm => exact ihc.twoBranches hi ht ih he ihm
  | loop hw _ hd _ ihc ih => exact ihc.loop hw hd ih
  | statement h ih => exact ih.statement (h.opensWith (.inl rfl)) (h.functionsOpen rfl)
  | declareVar hv hx heq _ he ih => exact ih.declareVar hv hx heq he
  | declareFunction hk hx _ ih => exact .declareFunction hk hx ih
  | noDeclarations => exact .noDeclarations
  | lastDeclaration h ih => exact ih.lastDeclaration (h.opensWith (.inl rfl))
  | @moreDeclarations _ ts us _ _ h hs hns ih ihs =>
    -- The declarations behind are not empty, so they open with a token of theirs.
    have hus : us ≠ [] := by
      rintro rfl
      exact hns hs.declarations_nil
    exact ih.moreDeclarations (h.opensWith (.inl rfl)) (hs.opensWith (.inr hus)) ihs

end Scriptlet
