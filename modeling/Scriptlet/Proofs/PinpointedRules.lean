import Scriptlet.Proofs.PinpointedRows

namespace Scriptlet

open Cursor Scriptlet.Parser Surroundings Forms

namespace Grammar

variable {recur : Rule → Parser Node} {room : Nat} {s : Surroundings} {c : Cursor}

def anyName : Token :=
  .named "x"

theorem forms_anyName (f : Bool) : Forms f .expression [anyName] :=
  ⟨_, .expression_of_primary (.name rfl)⟩

theorem forms_statement (f : Bool) : Forms f (.statement .ending) [anyName] := by
  obtain ⟨n, hn⟩ := forms_anyName f
  exact ⟨_, by simpa using Derives.expression hn .omitted⟩

theorem mendable_noExpression (f : Bool) (t : Token) :
    Mendable (Forms f .primary) (.noExpression t) [] := by
  refine ⟨⟨[anyName], _, .name rfl⟩, fun k hk => ?_⟩
  simp only [SyntaxFault.expected, List.mem_cons, List.not_mem_nil, or_false] at hk
  rcases hk with rfl | rfl | rfl | rfl
  · exact ⟨.bare .number, [], rfl, _, .literal (.inl rfl)⟩
  · exact ⟨.bare .string, [], rfl, _, .literal (.inr rfl)⟩
  · exact ⟨anyName, [], rfl, _, .name rfl⟩
  · obtain ⟨n, hn⟩ := forms_anyName f
    have hgroup : Derives f .primary (.bare (.symbol .leftParen) :: [anyName] ++
        [.bare (.symbol .rightParen)]) n := .group rfl hn rfl
    exact ⟨_, _, rfl, n, hgroup⟩

theorem pinpoints_literal {value : Token → Value} {E : SyntaxFault → List Token → Token → Prop}
    {k : TokenKind} (hk : c.current.kind = k) (hend : k ≠ .endOfInput) (hvar : k ≠ .keyword .varWord)
    (hc : EqualsPaired c.ahead) : Pinpoints (literal value) s c E :=
  pinpoints_take_bind hk hend fun _ hp => pinpoints_pure (hp.equalsPaired hk hvar hc)

section

variable (hrec : Sound recur room) (hpin : Pinned recur)

include hrec hpin

theorem pinpoints_group (ho : c.current.kind = .symbol .leftParen) (hc : EqualsPaired c.ahead) :
    Pinpoints (group recur) s c (Breaks (Forms s.inFunction .primary)) := by
  refine pinpoints_take_bind ho (by decide) fun d hp => ?_
  have hd := hp.equalsPaired ho (by decide) hc
  refine ((hpin .expression s d hd).mono fun g us _ _ hg => ?_).bind (hrec .expression s d) ?_
  · exact .cons hg.mendable fun xs ⟨n, hn⟩ => ⟨[.bare (.symbol .rightParen)], n, .group ho hn rfl⟩
  intro n us d' hp' hd' hn
  refine pinpoints_require_bind (by decide) (fun _ => ?_) fun t d'' hp'' ht => ?_
  · exact .missing (List.cons_ne_nil _ _)
      ⟨.bare (.symbol .rightParen), [], rfl, n, by simpa using Derives.group ho hn rfl⟩
  · exact pinpoints_pure (hp''.equalsPaired ht (by decide) hd')

theorem pinpoints_primary (hc : EqualsPaired c.ahead) :
    Pinpoints (primary recur) s c (Breaks (Forms s.inFunction .primary)) := by
  apply pinpoints_current_bind
  split
  · rename_i h
    exact pinpoints_literal h (by decide) (by decide) hc
  · rename_i h
    exact pinpoints_literal h (by decide) (by decide) hc
  · rename_i h
    exact pinpoints_literal h (by decide) (by decide) hc
  · rename_i h
    exact pinpoints_literal h (by decide) (by decide) hc
  · rename_i h
    exact pinpoints_literal h (by decide) (by decide) hc
  · rename_i h
    exact pinpoints_take_bind h (by decide) fun d hp =>
      pinpoints_pure (hp.equalsPaired h (by decide) hc)
  · rename_i h
    exact pinpoints_group hrec hpin h hc
  · rename_i h
    refine pinpoints_take_bind h (by decide) fun d hp => ?_
    have hd := hp.equalsPaired h (by decide) hc
    refine Pinpoints.map ((pinpoints_definition hrec hpin hd _ none).mono fun g us _ _ hg => ?_)
    exact .cons hg fun xs ⟨e, he⟩ => ⟨[], _, by simpa using Derives.lambda h he⟩
  · rename_i hfun
    exact pinpoints_fault rfl ⟨mendable_noExpression _ _, fun _ => hfun⟩

theorem pinpoints_manyCommas (n : Nat) (items : List Node) (hc : EqualsPaired c.ahead) :
    Pinpoints (manyCommas (recur .expression) n items) s c fun g us _ =>
      Mendable (Lengthens (Forms s.inFunction .expression) (Forms s.inFunction .argumentRow)) g us := by
  induction n generalizing items c with
  | zero => exact pinpoints_exhausted
  | succ n ih =>
    refine pinpoints_accept_bind (by decide) (fun _ => pinpoints_pure hc) fun comma d hp hcomma => ?_
    have hd := hp.equalsPaired hcomma (by decide) hc
    refine ((hpin .expression s d hd).mono fun g us _ _ hg => ?_).bind (hrec .expression s d) ?_
    · refine hg.mendable.cons fun xs ⟨n, hn⟩ => ⟨[], fun us ⟨m, hm⟩ => ?_⟩
      exact ⟨_, by simpa using Derives.moreArguments hm hcomma (.lastArgument hn)⟩
    intro m us d' hp' hd' hm
    refine (ih (m :: items) hd').mono fun g vs _ _ hg => ?_
    refine (show Mendable _ g ((comma :: us) ++ vs) from hg.behind ?_)
    refine fun xs hxs => ⟨[], fun ts ⟨k, hk⟩ => ?_⟩
    obtain ⟨ns, hns⟩ := hxs us ⟨m, hm⟩
    exact ⟨_, by simpa using Derives.moreArguments hk hcomma hns⟩

theorem pinpoints_arguments (hc : EqualsPaired c.ahead) :
    Pinpoints (arguments recur) s c fun g us _ => Mendable (Forms s.inFunction .arguments) g us := by
  apply pinpoints_currentKind_bind
  split
  · exact pinpoints_pure hc
  · apply pinpoints_read_bind
    refine ((hpin .expression s c hc).mono fun g us _ _ hg => ?_).bind (hrec .expression s c) ?_
    · exact hg.mendable.mono fun xs ⟨n, hn⟩ => ⟨[], _, by simpa using .arguments (.lastArgument hn)⟩
    intro m us d hp hd hm
    refine (pinpoints_manyCommas hrec hpin s.length [m] hd).mono fun g vs _ _ hg => hg.behind ?_
    intro xs hxs
    obtain ⟨ns, hns⟩ := hxs us ⟨m, hm⟩
    exact ⟨[], ns, by simpa using Derives.arguments hns⟩

theorem pinpoints_callsFrom (n : Nat) (callee : Node) (hc : EqualsPaired c.ahead) :
    Pinpoints (callsFrom recur n callee) s c fun g us _ =>
      Mendable (Lengthens (Forms s.inFunction .call) (Forms s.inFunction .call)) g us := by
  have hcall {o t : Token} {us : List Token} (ho : o.kind = .symbol .leftParen)
      (hus : Forms s.inFunction .arguments us) (ht : t.kind = .symbol .rightParen) :
      Lengthens (Forms s.inFunction .call) (Forms s.inFunction .call) (o :: us ++ [t]) := by
    rintro ts ⟨n, hn⟩
    obtain ⟨ns, hns⟩ := hus
    exact ⟨_, by simpa using Derives.call hn ho hns ht⟩
  induction n generalizing callee c with
  | zero => exact pinpoints_exhausted
  | succ n ih =>
    apply pinpoints_currentKind_bind
    split
    · rename_i ho
      refine pinpoints_take_bind ho (by decide) fun d hp => ?_
      have hd := hp.equalsPaired ho (by decide) hc
      refine ((pinpoints_arguments hrec hpin hd).mono fun g us _ _ hg => ?_).bind (b := s.lavish)
        (ensures_arguments hrec (lavish_covers .expression)) ?_
      · exact hg.cons fun xs hxs => ⟨[.bare (.symbol .rightParen)], hcall ho hxs rfl⟩
      intro ns us d' hp' hd' hns
      refine pinpoints_require_bind (by decide) (fun _ => ?_) fun t d'' hp'' ht => ?_
      · exact .missing ⟨.bare (.symbol .rightParen), [], rfl, by simpa using hcall ho ⟨ns, hns⟩ rfl⟩
      have hd'' := hp''.equalsPaired ht (by decide) hd'
      refine (ih _ hd'').mono fun g vs _ _ hg => ?_
      rw [show c.current :: (us ++ t :: vs) = (c.current :: us ++ [t]) ++ vs by simp]
      refine hg.behind fun xs hxs => ⟨[], fun ts hts => ?_⟩
      simpa using hxs _ (hcall ho ⟨ns, hns⟩ ht ts hts)
    · exact pinpoints_pure hc

theorem pinpoints_unary (hc : EqualsPaired c.ahead) :
    Pinpoints (unary recur) s c (Breaks (Forms s.inFunction .unary)) := by
  apply pinpoints_currentKind_bind
  split
  · rename_i h
    refine pinpoints_take_bind rfl (by rcases h with h | h <;> rw [h] <;> decide) fun d hp => ?_
    have hd := hp.equalsPaired rfl (by rcases h with h | h <;> rw [h] <;> decide) hc
    refine Pinpoints.map (Pinpoints.nested ((hpin .unary _ d hd).mono fun g us _ _ hg => ?_))
    exact .cons hg.mendable fun xs ⟨n, hn⟩ => ⟨[], _, by simpa using Derives.unary h hn⟩
  · apply pinpoints_read_bind
    refine ((pinpoints_primary hrec hpin hc).mono fun g us _ _ hg => ?_).bind (b := s.lavish)
      (ensures_primary hrec lavish_affords) ?_
    · exact hg.mono fun xs ⟨n, hn⟩ => ⟨[], n, by simpa using .plain (.callee hn)⟩
    intro n us d hp hd hn
    refine (pinpoints_callsFrom hrec hpin s.length n hd).mono fun g vs _ _ hg => ?_
    refine .behind (hn.opensWith (.inl rfl)).ne_nil hg fun xs hxs => ?_
    obtain ⟨m, hm⟩ := hxs us ⟨n, .callee hn⟩
    exact ⟨[], m, by simpa using .plain hm⟩

end

section

variable {l : Level} {ls : List Level} {operand : Parser Node} {b : Allowance}
  (hensures : ∀ c, Ensures operand s c b fun m ts _ => Derives s.inFunction (.operation ls) ts m)
  (hoperand : ∀ c, EqualsPaired c.ahead →
    Pinpoints operand s c (Breaks (Forms s.inFunction (.operation ls))))

include hensures hoperand

theorem pinpoints_chainFrom (n : Nat) (left : Node) (hc : EqualsPaired c.ahead) :
    Pinpoints (chainFrom l.operators operand n left) s c fun g us _ =>
      Mendable (Lengthens (Forms s.inFunction (.operation (l :: ls)))
        (Forms s.inFunction (.operation (l :: ls)))) g us := by
  have hstep {op : Token} {us : List Token} (hop : op.kind ∈ l.operators)
      (hus : Forms s.inFunction (.operation ls) us) :
      Lengthens (Forms s.inFunction (.operation (l :: ls)))
        (Forms s.inFunction (.operation (l :: ls))) (op :: us) := by
    rintro ts ⟨n, hn⟩
    obtain ⟨m, hm⟩ := hus
    exact ⟨_, .binary hn hop hm⟩
  induction n generalizing left c with
  | zero => exact pinpoints_exhausted
  | succ n ih =>
    apply pinpoints_currentKind_bind
    split
    · rename_i h
      have hop := List.contains_iff_mem.mp h
      obtain ⟨hend, hvar⟩ := Level.kind_of_operator hop
      refine pinpoints_take_bind rfl hend fun d hp => ?_
      refine ((hoperand d (hp.equalsPaired rfl hvar hc)).mono fun g us _ _ hg => ?_).bind (hensures d) ?_
      · exact hg.mendable.cons fun xs hxs => ⟨[], by simpa using hstep hop hxs⟩
      intro m us d' hp' hd' hm
      refine (ih _ hd').mono fun g vs _ _ hg => ?_
      refine (show Mendable _ g ((c.current :: us) ++ vs) from hg.behind fun xs hxs => ?_)
      exact ⟨[], fun ts hts => by simpa using hxs _ (hstep hop ⟨m, hm⟩ ts hts)⟩
    · exact pinpoints_pure hc

theorem pinpoints_chain (hc : EqualsPaired c.ahead) :
    Pinpoints (chain l.operators operand) s c (Breaks (Forms s.inFunction (.operation (l :: ls)))) := by
  apply pinpoints_read_bind
  refine ((hoperand c hc).mono fun g us _ _ hg => ?_).bind (hensures c) ?_
  · exact hg.mono fun xs ⟨n, hn⟩ => ⟨[], n, by simpa using .operand hn⟩
  intro m us d hp hd hm
  refine (pinpoints_chainFrom hensures hoperand s.length m hd).mono fun g vs _ _ hg => ?_
  refine .behind (hm.opensWith (.inl rfl)).ne_nil hg fun xs hxs => ⟨[], ?_⟩
  simpa using hxs us ⟨m, .operand hm⟩

end

section

variable (hrec : Sound recur room) (hpin : Pinned recur)

include hrec hpin

theorem pinpoints_levels (ls : List Level) (hc : EqualsPaired c.ahead) :
    Pinpoints ((ls.map Level.operators).foldr chain (recur .unary)) s c
      (Breaks (Forms s.inFunction (.operation ls))) := by
  induction ls generalizing c with
  | nil => exact (hpin .unary s c hc).mono fun g us _ _ hg => hg.mono fun xs ⟨n, hn⟩ =>
      ⟨[], n, by simpa using .tightest hn⟩
  | cons l ls ih =>
    exact pinpoints_chain
      (fun _ => ensures_levels hrec (lavish_covers .unary) (lavish_turns _) ls) (fun _ => ih) hc

theorem pinpoints_assignment (hc : EqualsPaired c.ahead) :
    Pinpoints (assignment recur) s c (Breaks (Forms s.inFunction .expression)) := by
  refine ((pinpoints_levels hrec hpin Level.ladder hc).mono fun g us _ _ hg => ?_).bind
    (ensures_levels hrec (lavish_covers .unary) (lavish_turns _) Level.ladder) ?_
  · exact hg.mono fun xs ⟨n, hn⟩ => ⟨[], n, by simpa using .operation hn⟩
  intro n us d hp hd hn
  apply pinpoints_currentKind_bind
  rw [if_neg (current_ne_equal hd)]
  exact pinpoints_pure hd

theorem pinpoints_expressionStatement (hc : EqualsPaired c.ahead) :
    Pinpoints (expressionStatement recur) s c (Breaks (Forms s.inFunction (.statement .ending))) := by
  refine ((hpin .expression s c hc).mono fun g us _ _ hg => ?_).bind (hrec .expression s c) ?_
  · exact hg.mono fun xs ⟨n, hn⟩ => ⟨[], _, .expression hn .omitted⟩
  intro n us d hp hd hn
  refine ((pinpoints_endStatement hd).mono ?_).map
  rintro g _ d' - ⟨rfl, rfl⟩
  rw [List.append_nil]
  have hus : us ≠ [] := (Derives.opensWith hn (.inl rfl)).ne_nil
  exact .missing hus ⟨.bare (.symbol .semicolon), [], rfl, _, .expression hn (.semicolon rfl)⟩

omit hrec in
theorem pinpoints_returnValue (hc : EqualsPaired c.ahead) :
    Pinpoints (returnValue recur) s c fun g us _ => Mendable (Forms s.inFunction .expression) g us := by
  apply pinpoints_currentKind_bind
  split
  · exact pinpoints_pure hc
  · rw [← bind_pure_comp]
    exact ((hpin .expression s c hc).mono fun g us _ _ hg => hg.mendable).map

theorem pinpoints_returnStatement (hreturn : c.current.kind = .keyword .returnWord)
    (hc : EqualsPaired c.ahead) :
    Pinpoints (returnStatement recur) s c (Breaks (Forms s.inFunction (.statement .ending))) := by
  apply pinpoints_read_bind
  split
  · rename_i hf
    refine pinpoints_take_bind hreturn (by decide) fun d hp => ?_
    have hd := hp.equalsPaired hreturn (by decide) hc
    refine ((pinpoints_returnValue hpin hd).mono fun g us _ _ hg => ?_).bind (b := s.lavish)
      (ensures_returnValue hrec (lavish_covers .expression)) ?_
    · rw [hf] at hg ⊢
      exact .cons hg fun xs ⟨n, hn⟩ => ⟨[], _, .retValue hreturn hn .omitted⟩
    intro r us d' hp' hd' hr
    refine ((pinpoints_endStatement hd').mono ?_).map
    rintro g _ d'' - ⟨rfl, rfl⟩
    rw [List.append_nil]
    rw [hf] at hr ⊢
    refine .missing (List.cons_ne_nil _ _) ⟨.bare (.symbol .semicolon), [], rfl, ?_⟩
    cases r with
    | none =>
      subst hr
      exact ⟨_, .ret hreturn (.semicolon rfl)⟩
    | some n => exact ⟨_, .retValue hreturn hr (.semicolon rfl)⟩
  · apply pinpoints_current_bind
    exact pinpoints_fault hreturn.symm
      ⟨.of_viable rfl ⟨_, forms_statement _⟩, fun _ => by rw [hreturn]; decide⟩

omit hrec in
theorem pinpoints_elseBranch (hc : EqualsPaired c.ahead) :
    Pinpoints (elseBranch recur) s c fun g us _ => ∃ e vs, us = e :: vs ∧ e.kind = .keyword .elseWord ∧
      Mendable (Forms s.inFunction (.statement .ending)) g vs := by
  refine pinpoints_accept_bind (by decide) (fun _ => pinpoints_pure hc) fun e d hp he => ?_
  have hd := hp.equalsPaired he (by decide) hc
  simp only [if_true, ← bind_pure_comp]
  exact ((hpin .statement s d hd).mono fun g us _ _ hg => ⟨e, us, rfl, he, hg.mendable⟩).map

theorem pinpoints_conditional (hif : c.current.kind = .keyword .ifWord) (hc : EqualsPaired c.ahead) :
    Pinpoints (conditional recur) s c (Breaks (Forms s.inFunction (.statement .ending))) := by
  -- A statement that completes the conditional wherever the parser breaks off.
  obtain ⟨x, hx⟩ := forms_statement s.inFunction
  refine pinpoints_take_bind hif (by decide) fun d hp => ?_
  have hd := hp.equalsPaired hif (by decide) hc
  refine ((hpin .expression s d hd).mono fun g us _ _ hg => ?_).bind (hrec .expression s d) ?_
  · refine .cons hg.mendable ?_
    rintro xs ⟨n, hn⟩
    exact ⟨.bare (.keyword .thenWord) :: [anyName], _, .oneBranch hif hn rfl hx (by decide)⟩
  intro n cs d₁ hp₁ hd₁ hn
  refine pinpoints_require_bind (by decide) (fun _ => ?_) fun t d₂ hp₂ ht => ?_
  · exact .missing (List.cons_ne_nil _ _) ⟨.bare (.keyword .thenWord), [anyName], rfl, _, by
      simpa using Derives.oneBranch hif hn rfl hx (by decide)⟩
  have hd₂ := hp₂.equalsPaired ht (by decide) hd₁
  refine ((hpin .statement s d₂ hd₂).mono fun g us _ _ hg => ?_).bind (hrec .statement s d₂) ?_
  · rw [show c.current :: (cs ++ t :: us) = (c.current :: cs ++ [t]) ++ us by simp]
    refine .behind (by simp) hg.mendable ?_
    rintro xs ⟨m, hm⟩
    exact ⟨[], _, by simpa using Derives.oneBranch hif hn ht hm (by decide)⟩
  intro m ts d₃ hp₃ hd₃ hm
  refine ((pinpoints_elseBranch hpin hd₃).mono ?_).map
  rintro g _ d₄ hp₄ ⟨e, vs, rfl, he, hg⟩
  have hother : Follow.of d₃.current.kind = .otherBranch := by
    rw [hp₄.1, he]
    rfl
  rw [show c.current :: (cs ++ t :: (ts ++ e :: vs)) = (c.current :: cs ++ t :: ts ++ [e]) ++ vs by simp]
  rw [Rule.Finds, hother] at hm
  refine .behind (by simp) hg ?_
  rintro xs ⟨k, hk⟩
  exact ⟨[], _, by simpa using Derives.twoBranches hif hn ht hm he hk⟩

theorem pinpoints_loop (hwhile : c.current.kind = .keyword .whileWord) (hc : EqualsPaired c.ahead) :
    Pinpoints (loop recur) s c (Breaks (Forms s.inFunction (.statement .ending))) := by
  obtain ⟨x, hx⟩ := forms_statement s.inFunction
  refine pinpoints_take_bind hwhile (by decide) fun d hp => ?_
  have hd := hp.equalsPaired hwhile (by decide) hc
  refine ((hpin .expression s d hd).mono fun g us _ _ hg => ?_).bind (hrec .expression s d) ?_
  · exact .cons hg.mendable fun xs ⟨n, hn⟩ =>
      ⟨.bare (.keyword .doWord) :: [anyName], _, .loop hwhile hn rfl hx⟩
  intro n cs d₁ hp₁ hd₁ hn
  refine pinpoints_require_bind (by decide) (fun _ => ?_) fun t d₂ hp₂ ht => ?_
  · exact .missing (List.cons_ne_nil _ _) ⟨.bare (.keyword .doWord), [anyName], rfl, _, by
      simpa using Derives.loop hwhile hn rfl hx⟩
  have hd₂ := hp₂.equalsPaired ht (by decide) hd₁
  refine ((hpin .statement s d₂ hd₂).mono fun g us _ _ hg => ?_).map
  rw [show c.current :: (cs ++ t :: us) = (c.current :: cs ++ [t]) ++ us by simp]
  exact .behind (by simp) hg.mendable fun xs ⟨m, hm⟩ =>
    ⟨[], _, by simpa using Derives.loop hwhile hn ht hm⟩

theorem pinpoints_block (hbrace : c.current.kind = .symbol .leftBrace) (hc : EqualsPaired c.ahead) :
    Pinpoints (block recur) s c (Breaks (Forms s.inFunction (.statement .ending))) := by
  let f (r : Position × List Node) : Node := .block r.1 r.2
  refine Pinpoints.map (f := f) ?_
  refine (pinpoints_body hrec hpin hc).mono fun g us d hp hg => ⟨hg.mono ?_, ?_⟩
  · rintro _ ⟨o, us, t, rfl, ho, ⟨ns, hns⟩, ht⟩
    exact ⟨[], _, by simpa using Derives.block ho hns ht⟩
  · rintro rfl
    obtain rfl : c = d := hp
    rw [hbrace]
    decide

theorem pinpoints_statement (hc : EqualsPaired c.ahead) :
    Pinpoints (statement recur) s c (Breaks (Forms s.inFunction (.statement .ending))) := by
  apply pinpoints_currentKind_bind
  split
  · rename_i h
    exact pinpoints_conditional hrec hpin h hc
  · rename_i h
    exact pinpoints_loop hrec hpin h hc
  · rename_i h
    exact pinpoints_returnStatement hrec hpin h hc
  · rename_i h
    exact pinpoints_block hrec hpin h hc
  · exact pinpoints_expressionStatement hrec hpin hc

theorem pinpoints_functionDeclaration (hfun : c.current.kind = .keyword .funWord)
    (hnext : c.next.kind = .identifier) (hc : EqualsPaired c.ahead) :
    Pinpoints (functionDeclaration recur) s c (Breaks (Forms s.inFunction (.declaration .ending))) := by
  refine pinpoints_take_bind hfun (by decide) fun d hp => ?_
  have hd := hp.equalsPaired hfun (by decide) hc
  have hname : d.current.kind = .identifier := by
    obtain ⟨-, -, d', hd', rfl⟩ := hp
    rw [advance_current hd', hnext]
  refine pinpoints_take_bind hname (by decide) fun d₁ hp₁ => ?_
  have hd₁ := hp₁.equalsPaired hname (by decide) hd
  refine ((pinpoints_definition hrec hpin hd₁ c.current.pos _).mono fun g us _ _ hg => ?_).map
  refine (show Breaks _ g ([c.current, d.current] ++ us) _ from .behind (by simp) hg fun xs ⟨e, he⟩ => ?_)
  exact ⟨[], _, by simpa using Derives.declareFunction hfun hname he⟩

theorem pinpoints_varDeclaration (hvar : c.current.kind = .keyword .varWord)
    (hc : EqualsPaired c.ahead) :
    Pinpoints (varDeclaration recur) s c (Breaks (Forms s.inFunction (.declaration .ending))) := by
  obtain ⟨n, hn⟩ := forms_anyName s.inFunction
  have hwhole {x eq : Token} (hx : x.kind = .identifier) (heq : eq.kind = .symbol .equal) :
      Forms s.inFunction (.declaration .ending) (c.current :: x :: eq :: [anyName] ++ []) :=
    ⟨_, .declareVar hvar hx heq hn .omitted⟩
  let equal : Token := .bare (.symbol .equal)
  refine pinpoints_take_bind hvar (by decide) fun d hp => ?_
  refine pinpoints_require_bind (by decide) (fun _ => ?_) fun x d₁ hp₁ hx => ?_
  · exact .missing (List.cons_ne_nil _ _) ⟨anyName, equal :: [anyName], rfl, hwhole rfl rfl⟩
  refine pinpoints_require_bind (by decide) (fun _ => ?_) fun eq d₂ hp₂ heq => ?_
  · exact .missing (List.cons_ne_nil _ _) ⟨equal, [anyName], rfl, hwhole hx rfl⟩
  -- The last two tokens of the header are no `var`, so no equals sign behind it needs them.
  have hd₂ : EqualsPaired d₂.ahead := by
    have hheader : c.Passes [c.current, x, eq] d₂ := hp.append (hp₁.append hp₂)
    rw [hheader.ahead_eq] at hc
    refine hc.drop fun pre v post h hpost => ?_
    cases pre with
    | nil =>
      obtain ⟨-, rfl⟩ := List.cons.inj h
      exact absurd hpost (by simp)
    | cons w pre =>
      have hv : v ∈ [x, eq] := (List.cons.inj h).2 ▸ by simp
      rcases List.mem_pair.mp hv with rfl | rfl
      · rw [hx]
        decide
      · rw [heq]
        decide
  refine ((hpin .expression s d₂ hd₂).mono fun g us _ _ hg => ?_).bind (hrec .expression s d₂) ?_
  · refine (show Breaks _ g ([c.current, x, eq] ++ us) _ from .behind (by simp) hg.mendable ?_)
    exact fun xs ⟨m, hm⟩ => ⟨[], _, .declareVar hvar hx heq hm .omitted⟩
  intro m us d₃ hp₃ hd₃ hm
  refine ((pinpoints_endStatement hd₃).mono ?_).map
  rintro g _ d₄ - ⟨rfl, rfl⟩
  rw [List.append_nil]
  exact .missing (List.cons_ne_nil _ _)
    ⟨.bare (.symbol .semicolon), [], rfl, _, .declareVar hvar hx heq hm (.semicolon rfl)⟩

theorem pinpoints_declaration (hc : EqualsPaired c.ahead) :
    Pinpoints (declaration recur) s c (Breaks (Forms s.inFunction (.declaration .ending))) := by
  have hrun (c : Cursor) : declaration recur s c =
      if c.current.kind = .keyword .funWord ∧ c.next.kind = .identifier then
        functionDeclaration recur s c
      else if c.current.kind = .keyword .varWord then varDeclaration recur s c
      else recur .statement s c := by
    rw [declaration, bind_apply, currentKind_apply]
    simp only [bind_apply, nextKind_apply]
    split
    · rfl
    · split <;> rfl
  have hstatement :
      Pinpoints (recur .statement) s c (Breaks (Forms s.inFunction (.declaration .ending))) := by
    refine (hpin .statement s c hc).mono fun g us d _ hg => hg.mono ?_
    rintro xs ⟨n, hn⟩
    exact ⟨[], n, by simpa using .statement hn⟩
  by_cases hfun : c.current.kind = .keyword .funWord
  · -- Which rule runs depends on the token behind `fun` too, but no fault is at `fun` itself.
    have hopening (g : SyntaxFault) :
        ¬Breaks (Forms s.inFunction (.declaration .ending)) g [] c.current :=
      fun hg => hg.opening rfl hfun
    by_cases hnext : c.next.kind = .identifier
    · refine (pinpoints_functionDeclaration hrec hpin hfun hnext hc).congr_next (b := s.lavish) hopening
        (ensures_functionDeclaration hrec lavish_affords hfun hnext) ?_ fun c' hc' hn' => ?_
      · exact fun n d hn => (hn.opensWith (.inl rfl)).ne_nil rfl
      · rw [hrun, hc', hn', if_pos ⟨hfun, hnext⟩]
    · refine hstatement.congr_next hopening (hrec .statement s c) ?_ fun c' hc' hn' => ?_
      · exact fun n d hn => (hn.opensWith (.inl rfl)).ne_nil rfl
      · rw [hrun, hc', hn', if_neg fun h => hnext h.2, if_neg (by rw [hfun]; decide)]
  · by_cases hvar : c.current.kind = .keyword .varWord
    · refine (pinpoints_varDeclaration hrec hpin hvar hc).congr fun c' hc' => ?_
      rw [hrun, hc', if_neg fun h => hfun h.1, if_pos hvar]
    · refine hstatement.congr fun c' hc' => ?_
      rw [hrun, hc', if_neg fun h => hfun h.1, if_neg hvar]

end

end Grammar

theorem Pinned.expand {recur : Rule → Parser Node} {room : Nat} (hrec : Sound recur room)
    (hpin : Pinned recur) : Pinned (Grammar.expand recur) := by
  intro rule s c hc
  cases rule with
  | declaration => exact Grammar.pinpoints_declaration hrec hpin hc
  | statement => exact (Grammar.pinpoints_statement hrec hpin hc).nested
  | expression => exact (hpin .assignment { s with nesting := s.nesting + 1 } c hc).nested
  | assignment => exact Grammar.pinpoints_assignment hrec hpin hc
  | unary => exact Grammar.pinpoints_unary hrec hpin hc

theorem pinned_parse (room : Nat) : Pinned (Rule.parse room) := by
  induction room with
  | zero => exact fun _ _ _ _ => pinpoints_exhausted
  | succ room ih => exact ih.expand (sound_parse room)

end Scriptlet
