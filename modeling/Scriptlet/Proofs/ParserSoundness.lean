import Scriptlet.Proofs.Openings
import Scriptlet.Proofs.ParserTriples

namespace Scriptlet

open Cursor Scriptlet.Parser Scriptlet.Parser.Allowance

def Follow.of (kind : TokenKind) : Follow :=
  if kind = .symbol .rightBrace ∨ kind = .endOfInput then .ending
  else if kind = .keyword .elseWord then .otherBranch
  else .another

namespace Rule

def rank : Rule → Nat
  | declaration => 5
  | statement => 4
  | expression => 3
  | assignment => 2
  | unary => 1

def depth : Rule → Nat
  | declaration | statement => 2
  | expression => 1
  | assignment | unary => 0

def allowance (rule : Rule) (room : Nat) (s : Surroundings) : Allowance :=
  ⟨s.nesting + rule.depth, room - rule.rank, s.length, []⟩

def Finds (f : Bool) : Rule → Node → List Token → Cursor → Prop
  | declaration, n, ts, d => Derives f (.declaration (.of d.current.kind)) ts n
  | statement, n, ts, d => Derives f (.statement (.of d.current.kind)) ts n
  | expression, n, ts, _ | assignment, n, ts, _ => Derives f .expression ts n
  | unary, n, ts, _ => Derives f .unary ts n

end Rule

def Sound (recur : Rule → Parser Node) (room : Nat) : Prop :=
  ∀ rule s c, Ensures (recur rule) s c (rule.allowance room s) (rule.Finds s.inFunction)

structure Affords (b : Allowance) (s : Surroundings) (room : Nat) : Prop where
  nesting : s.nesting ≤ b.nesting
  room : b.room ≤ room
  turns : b.turns ≤ s.length

namespace Affords

variable {b : Allowance} {s : Surroundings} {room : Nat}

theorem after (h : Affords b s room) (ts : List Token) : Affords (b.after ts) s room := by
  obtain ⟨hn, hr, ht⟩ := h
  constructor <;> simp only [Allowance.after] <;> omega

theorem covers (h : Affords b s room) (rule : Rule) (hn : s.nesting + rule.depth ≤ b.nesting)
    (hr : b.room + rule.rank ≤ room) : b.Covers (rule.allowance room s) := by
  refine ⟨hn, ?_, h.turns, List.nil_subset _⟩
  simp only [Rule.allowance]
  omega

theorem of_covers {rule : Rule} (h : b.Covers (rule.allowance room s)) : Affords b s room := by
  obtain ⟨hn, hr, ht, -⟩ := h
  simp only [Rule.allowance] at hn hr ht
  exact ⟨by omega, by omega, ht⟩

theorem behind (h : Affords b s room) {ts : List Token} (hts : ts ≠ []) (rule : Rule) :
    (b.after ts).Covers (rule.allowance room s) := by
  obtain ⟨hn, hr, ht⟩ := h
  have hl : 0 < ts.length := List.length_pos_iff.mpr hts
  apply (Affords.after ⟨hn, hr, ht⟩ ts).covers rule
  all_goals
    simp only [Allowance.after]
    cases rule <;> simp only [Rule.depth, Rule.rank] <;> omega

end Affords

namespace Grammar

variable {recur : Rule → Parser Node} {room : Nat} {s : Surroundings} {c : Cursor} {b : Allowance}

theorem ensures_endStatement {slot : Slot} :
    Ensures (endStatement slot) s c b fun _ ts d =>
      Terminator (.of d.current.kind) ts := by
  unfold endStatement
  rw [ensures_currentKind_bind]
  split
  · rename_i h
    apply ensures_pure
    rw [Follow.of, if_pos h]
    exact .omitted
  · apply (ensures_require (by decide)).bind
    rintro t us d hp ⟨ht, rfl⟩
    exact ensures_pure (.semicolon ht)

theorem ensures_parameter {params : List String} :
    Ensures (parameter params) s c b fun x ts _ =>
      ∃ t, ts = [t] ∧ t.kind = .identifier ∧ x = t.text ∧ x ∉ params := by
  apply (ensures_require (by decide)).bind
  rintro t us d hp ⟨ht, rfl⟩
  split
  · exact ensures_fault ⟨t, by simp [Allowance.after], rfl⟩
  · rename_i h
    exact ensures_pure ⟨t, rfl, ht, rfl, h⟩

theorem ensures_parametersFrom (n : Nat) (params : List String) (hn : b.turns ≤ n)
    (hparams : params.Nodup) :
    Ensures (parametersFrom n params) s c b fun xs ts _ =>
      ∃ ys, xs = params ++ ys ∧ NameRow ts ys ∧ xs.Nodup := by
  induction n generalizing params c b with
  | zero => exact ensures_exhausted (.inr hn)
  | succ n ih =>
    apply ensures_parameter.bind
    rintro x us d hp ⟨t, rfl, ht, rfl, hx⟩
    have hnodup : (params ++ [t.text]).Nodup := by
      rw [List.nodup_append]
      refine ⟨hparams, by simp, ?_⟩
      rintro a ha _ hb rfl
      exact hx (List.mem_singleton.mp hb ▸ ha)
    apply (ensures_accept (by decide)).bind
    rintro yes vs d' hp' hyes
    cases yes with
    | false =>
      obtain ⟨rfl, -⟩ := hyes
      exact ensures_pure ⟨[t.text], rfl, .last ht, hnodup⟩
    | true =>
      obtain ⟨comma, hc, rfl⟩ := hyes
      apply (ih (params ++ [t.text]) (by simp only [Allowance.after]; simp; omega) hnodup).post
      rintro xs ws d'' - ⟨ys, rfl, hrow, hxs⟩
      exact ⟨t.text :: ys, by simp, .more ht hc hrow, hxs⟩

theorem ensures_parameterList (hb : b.turns ≤ s.length) :
    Ensures parameterList s c b fun xs ts _ => Parameters ts xs := by
  unfold parameterList
  rw [ensures_currentKind_bind]
  split
  · exact ensures_pure .none
  · rw [ensures_read_bind]
    apply (ensures_parametersFrom s.length [] hb List.nodup_nil).post
    rintro xs ts d - ⟨ys, rfl, hrow, hxs⟩
    exact .row hrow hxs

theorem ensures_parameters (hb : b.turns ≤ s.length) :
    Ensures parameters s c b fun xs ts _ =>
      ∃ o us c', ts = o :: us ++ [c'] ∧ o.kind = .symbol .leftParen ∧ Parameters us xs ∧
        c'.kind = .symbol .rightParen := by
  apply (ensures_require (by decide)).bind
  rintro o us d hp ⟨ho, rfl⟩
  apply (ensures_parameterList (by simp [Allowance.after]; omega)).bind
  rintro xs ts d' hp' hxs
  apply (ensures_require (by decide)).bind
  rintro t us d'' hp'' ⟨ht, rfl⟩
  exact ensures_pure ⟨o, ts, t, by simp, ho, hxs, ht⟩

theorem ensures_manyUntil (hrec : Sound recur room) {stops : List TokenKind}
    (hstops : ∀ k ∈ stops, Follow.of k = .ending) (n : Nat) (items : List Node)
    (hn : b.turns ≤ n) (hb : b.Covers (Rule.declaration.allowance room s)) :
    Ensures (manyUntil stops (recur .declaration) n items) s c b fun ns ts d =>
      stops.contains d.current.kind ∧
        ∃ ms, ns = items.reverse ++ ms ∧ Derives s.inFunction .declarations ts ms := by
  induction n generalizing items c b with
  | zero => exact ensures_exhausted (.inr hn)
  | succ n ih =>
    unfold manyUntil
    rw [ensures_currentKind_bind]
    split
    · rename_i h
      exact ensures_pure ⟨h, [], by simp, .noDeclarations⟩
    · apply ((hrec .declaration s c).mono hb fun _ _ _ _ h => h).bind
      intro m us d hp hm
      have hlt : 0 < us.length := List.length_pos_iff.mpr (hm.opensWith (.inl rfl)).ne_nil
      apply (ih (m :: items) (by simp only [Allowance.after]; omega) ?_).post
      · rintro ns vs d' hp' ⟨hstop, ms, rfl, hms⟩
        refine ⟨hstop, m :: ms, by simp, ?_⟩
        -- Whether this declaration is the last one decides which form of it is derived.
        by_cases hvs : vs = []
        · subst hvs
          obtain rfl := hms.declarations_nil
          rw [passes_nil] at hp'
          subst hp'
          rw [List.append_nil]
          have hf := hstops d.current.kind (List.contains_iff_mem.mp hstop)
          exact .lastDeclaration (hf ▸ hm)
        · obtain ⟨t, ws, rfl, ht⟩ := hms.opensWith (.inr hvs)
          have hf : Follow.of d.current.kind = .another := by
            rw [hp'.1]
            revert ht
            generalize t.kind = k
            revert k
            decide
          exact .moreDeclarations (hf ▸ hm) hms (hms.declarations_ne_nil hvs)
      · exact hb.after us

theorem ensures_statements (hrec : Sound recur room) (ht : b.turns ≤ s.length)
    (hb : b.Covers (Rule.declaration.allowance room s)) :
    Ensures
      (do manyUntil [.symbol .rightBrace, .endOfInput] (recur .declaration) (← read).length [])
      s c b fun ns ts _ => Derives s.inFunction .declarations ts ns := by
  rw [ensures_read_bind]
  apply (ensures_manyUntil hrec (by decide) s.length [] ht hb).post
  rintro ns vs d' - ⟨-, ms, rfl, hms⟩
  exact hms

theorem ensures_body (hrec : Sound recur room) (hn : s.nesting + 1 ≤ b.nesting)
    (hr : b.room ≤ room) (ht : b.turns ≤ s.length) :
    Ensures (body recur) s c b fun r ts _ =>
      ∃ o us c', ts = o :: us ++ [c'] ∧ o.kind = .symbol .leftBrace ∧ r.1 = o.pos ∧
        Derives s.inFunction .declarations us r.2 ∧ c'.kind = .symbol .rightBrace := by
  apply (ensures_require (by decide)).bind
  rintro o us d hp ⟨ho, rfl⟩
  let s' : Surroundings := { s with nesting := s.nesting + 1 }
  have hafford : Affords b s' room := ⟨hn, hr, ht⟩
  have hstatements := ensures_statements (c := d) hrec (hafford.after [o]).turns
    (hafford.behind (List.cons_ne_nil _ _) .declaration)
  apply (Ensures.nested (by simp [Allowance.after]; omega) hstatements).bind
  rintro ns vs d' hp' hns
  apply (ensures_require (by decide)).bind
  rintro t us d'' hp'' ⟨ht, rfl⟩
  exact ensures_pure ⟨o, vs, t, by simp, ho, rfl, hns, ht⟩

theorem ensures_definition (hrec : Sound recur room) (hb : Affords b s room) (pos : Position)
    (name : Option String) :
    Ensures (definition recur pos name) s c b fun d ts _ =>
      Derives s.inFunction (.definition pos name) ts d := by
  apply (ensures_parameters hb.turns).bind
  rintro xs us d hp ⟨po, ps, pc, rfl, hpo, hxs, hpc⟩
  obtain ⟨hn, hr, ht⟩ := hb.after (po :: ps ++ [pc])
  have hlt : s.nesting + 1 ≤ (b.after (po :: ps ++ [pc])).nesting := by
    have := hb.nesting
    simp [Allowance.after]
    omega
  apply (ensures_body (s := { s with inFunction := true }) hrec hlt hr ht).inFunction.bind
  rintro ⟨bodyPos, ns⟩ vs d' hp' ⟨bo, ts, bc, rfl, hbo, rfl, hns, hbc⟩
  apply ensures_pure
  have hdef : Derives s.inFunction (.definition pos name)
      (po :: ps ++ pc :: bo :: ts ++ [bc]) ⟨pos, name, xs, bo.pos, ns⟩ :=
    .definition hpo hxs hpc hbo hns hbc
  simpa using hdef

theorem ensures_literal {value : Token → Value} (hc : c.current.kind ≠ .endOfInput)
    (h : Derives s.inFunction .primary [c.current] (.literal c.current.pos (value c.current))) :
    Ensures (literal value) s c b fun n ts _ => Derives s.inFunction .primary ts n := by
  apply (ensures_take hc).bind
  rintro t us d hp ⟨rfl, rfl⟩
  exact ensures_pure h

theorem ensures_group (hrec : Sound recur room) (hb : Affords b s room)
    (hc : c.current.kind = .symbol .leftParen) :
    Ensures (group recur) s c b fun n ts _ => Derives s.inFunction .primary ts n := by
  apply (ensures_take (by rw [hc]; decide)).bind
  rintro o us d hp ⟨rfl, rfl⟩
  apply ((hrec .expression s d).mono (hb.behind (List.cons_ne_nil _ _) _)
    fun _ _ _ _ h => h).bind
  intro n ts d' hp' hn
  apply (ensures_require (by decide)).bind
  rintro t us d'' hp'' ⟨ht, rfl⟩
  apply ensures_pure
  simpa using Derives.group hc hn ht

theorem ensures_primary (hrec : Sound recur room) (hb : Affords b s room) :
    Ensures (primary recur) s c b fun n ts _ => Derives s.inFunction .primary ts n := by
  unfold primary
  rw [ensures_current_bind]
  split
  · rename_i h
    exact ensures_literal (by rw [h]; decide) (.literal (.inl h))
  · rename_i h
    exact ensures_literal (by rw [h]; decide) (.literal (.inr h))
  · rename_i h
    exact ensures_literal (by rw [h]; decide) (.truth h)
  · rename_i h
    exact ensures_literal (by rw [h]; decide) (.falsity h)
  · rename_i h
    exact ensures_literal (by rw [h]; decide) (.nil h)
  · rename_i h
    apply (ensures_take (by rw [h]; decide)).bind
    rintro t us d hp ⟨rfl, rfl⟩
    exact ensures_pure (.name h)
  · rename_i h
    exact ensures_group hrec hb h
  · rename_i h
    apply (ensures_take (by rw [h]; decide)).bind
    rintro t us d hp ⟨rfl, rfl⟩
    apply (ensures_definition hrec (hb.after _) _ _).bind
    intro def' ts d' hp' hd
    apply ensures_pure
    simpa using Derives.lambda h hd
  · exact ensures_fault ⟨c.current, by simp, rfl⟩

theorem ensures_manyCommas (hrec : Sound recur room) (n : Nat) (items : List Node)
    (hn : b.turns ≤ n) (hb : Affords b s room) :
    Ensures (manyCommas (recur .expression) n items) s c b fun ns ts _ =>
      ∃ ms, ns = items.reverse ++ ms ∧ ∀ us m, Derives s.inFunction .expression us m →
        Derives s.inFunction .argumentRow (us ++ ts) (m :: ms) := by
  induction n generalizing items c b with
  | zero => exact ensures_exhausted (.inr hn)
  | succ n ih =>
    apply (ensures_accept (by decide)).bind
    rintro yes us d hp hyes
    cases yes with
    | false =>
      obtain ⟨rfl, -⟩ := hyes
      refine ensures_pure ⟨[], by simp, fun us m hm => ?_⟩
      simpa using Derives.lastArgument hm
    | true =>
      obtain ⟨comma, hc, rfl⟩ := hyes
      apply ((hrec .expression s d).mono (hb.behind (List.cons_ne_nil _ _) _)
        fun _ _ _ _ h => h).bind
      intro m vs d' hp' hm
      apply (ih (m :: items) (by simp only [Allowance.after]; simp; omega)
        ((hb.after _).after _)).post
      rintro ns ws e - ⟨ms, rfl, hms⟩
      refine ⟨m :: ms, by simp, fun us k hk => ?_⟩
      simpa using Derives.moreArguments hk hc (hms vs m hm)

theorem ensures_arguments (hrec : Sound recur room)
    (hb : b.Covers (Rule.expression.allowance room s)) :
    Ensures (arguments recur) s c b fun ns ts _ => Derives s.inFunction .arguments ts ns := by
  unfold arguments
  rw [ensures_currentKind_bind]
  split
  · exact ensures_pure .noArguments
  · rw [ensures_read_bind]
    apply ((hrec .expression s c).mono hb fun _ _ _ _ h => h).bind
    intro m us d hp hm
    have hafford := (Affords.of_covers hb).after us
    apply (ensures_manyCommas hrec s.length [m] hafford.turns hafford).post
    rintro ns vs d' - ⟨ms, rfl, hms⟩
    exact .arguments (hms us m hm)

theorem ensures_callsFrom (hrec : Sound recur room) (n : Nat) (callee : Node)
    (hn : b.turns ≤ n) (hb : Affords b s room) :
    Ensures (callsFrom recur n callee) s c b fun r ts _ =>
      ∀ us, Derives s.inFunction .call us callee → Derives s.inFunction .call (us ++ ts) r := by
  induction n generalizing callee c b with
  | zero => exact ensures_exhausted (.inr hn)
  | succ n ih =>
    unfold callsFrom
    rw [ensures_currentKind_bind]
    split
    · rename_i h
      apply (ensures_take (by rw [h]; decide)).bind
      rintro o us d hp ⟨rfl, rfl⟩
      apply (ensures_arguments hrec (hb.behind (List.cons_ne_nil _ _) _)).bind
      intro ns vs d' hp' hns
      apply (ensures_require (by decide)).bind
      rintro t us d'' hp'' ⟨ht, rfl⟩
      apply (ih _ (by simp only [Allowance.after]; simp; omega)
        (((hb.after _).after _).after _)).post
      rintro r ws e - hr us hus
      simpa using hr _ (.call hus h hns ht)
    · refine ensures_pure fun us hus => ?_
      rwa [List.append_nil]

theorem ensures_unary (hrec : Sound recur room) (hb : Affords b s room) :
    Ensures (unary recur) s c b fun n ts _ => Derives s.inFunction .unary ts n := by
  unfold unary
  rw [ensures_currentKind_bind]
  split
  · rename_i h
    apply (ensures_take (by rcases h with h | h <;> rw [h] <;> decide)).bind
    rintro op us d hp ⟨rfl, rfl⟩
    let s' : Surroundings := { s with nesting := s.nesting + 1 }
    obtain ⟨hn, hr, ht⟩ := hb
    have hcovers : (b.after [c.current]).Covers (Rule.unary.allowance room s') := by
      refine ⟨?_, ?_, ?_, List.nil_subset _⟩ <;>
        simp [Allowance.after, Rule.allowance, Rule.depth, Rule.rank, s'] <;> omega
    have hoperand := (hrec .unary s' d).mono hcovers fun _ _ _ _ h => h
    apply (Ensures.nested (by simp [Allowance.after]; omega) hoperand).bind
    intro n ts d' hp' hn'
    apply ensures_pure
    simpa using Derives.unary h hn'
  · rw [ensures_read_bind]
    apply (ensures_primary hrec hb).bind
    intro n us d hp hn
    apply (ensures_callsFrom hrec s.length n (hb.after us).turns (hb.after us)).post
    rintro r ts d' - hr
    exact .plain (hr us (.callee hn))

section

variable {a : Allowance} {l : Level} {ls : List Level} {operand : Parser Node}

theorem ensures_chainFrom (n : Nat) (left : Node) (hn : b.turns ≤ n) (hb : b.Covers a)
    (hoperand : ∀ c, Ensures operand s c a fun m ts _ => Derives s.inFunction (.operation ls) ts m) :
    Ensures (chainFrom l.operators operand n left) s c b fun r ts _ =>
      ∀ us, Derives s.inFunction (.operation (l :: ls)) us left →
        Derives s.inFunction (.operation (l :: ls)) (us ++ ts) r := by
  induction n generalizing left c b with
  | zero => exact ensures_exhausted (.inr hn)
  | succ n ih =>
    unfold chainFrom
    rw [ensures_currentKind_bind]
    split
    · rename_i h
      have hop := List.contains_iff_mem.mp h
      have hc : c.current.kind ≠ .endOfInput := by
        intro he
        rw [he] at hop
        revert hop
        cases l <;> decide
      apply (ensures_take hc).bind
      rintro op us d hp ⟨rfl, rfl⟩
      apply ((hoperand d).mono (hb.after _) fun _ _ _ _ h => h).bind
      intro m vs d' hp' hm
      apply (ih _ (by simp only [Allowance.after]; simp; omega) ((hb.after _).after _)).post
      rintro r ws d'' - hr us hus
      simpa using hr _ (.binary hus hop hm)
    · refine ensures_pure fun us hus => ?_
      rwa [List.append_nil]

theorem ensures_chain (ht : b.turns ≤ s.length)
    (hoperand : ∀ c, Ensures operand s c b fun m ts _ => Derives s.inFunction (.operation ls) ts m) :
    Ensures (chain l.operators operand) s c b fun m ts _ =>
      Derives s.inFunction (.operation (l :: ls)) ts m := by
  unfold chain
  rw [ensures_read_bind]
  apply (hoperand c).bind
  intro m us d hp hm
  apply (ensures_chainFrom s.length m (by simp only [Allowance.after]; omega)
    ((Covers.refl b).after us) hoperand).post
  rintro r ts d' - hr
  exact hr us (.operand hm)

end

theorem ensures_levels (hrec : Sound recur room) (hb : b.Covers (Rule.unary.allowance room s))
    (ht : b.turns ≤ s.length) (ls : List Level) :
    Ensures ((ls.map Level.operators).foldr chain (recur .unary)) s c b fun m ts _ =>
      Derives s.inFunction (.operation ls) ts m := by
  induction ls generalizing c with
  | nil => exact (hrec .unary s c).mono hb fun _ _ _ _ h => .tightest h
  | cons l ls ih => exact ensures_chain ht fun c => ih

theorem ensures_assignment (hrec : Sound recur room)
    (hb : b.Covers (Rule.unary.allowance room s)) :
    Ensures (assignment recur) s c b fun n ts _ => Derives s.inFunction .expression ts n := by
  have hafford := Affords.of_covers hb
  apply (ensures_levels hrec hb hafford.turns Level.ladder).bind
  intro target ts d hp htarget
  rw [ensures_currentKind_bind]
  split
  · rename_i heq
    apply (ensures_take (by rw [heq]; decide)).bind
    rintro eq us d' hp' ⟨rfl, rfl⟩
    apply ((hrec .assignment s d').mono
      ((hafford.after ts).behind (List.cons_ne_nil _ _) _) fun _ _ _ _ h => h).bind
    intro value vs d'' hp'' hvalue
    split
    · apply ensures_pure
      simpa using Derives.assign htarget.target heq hvalue
    · exact ensures_fault ⟨d.current, by simp [Allowance.after], rfl⟩
  · apply ensures_pure
    rw [List.append_nil]
    exact .operation htarget

theorem ensures_elseBranch (hrec : Sound recur room) (hb : Affords b s room) :
    Ensures (elseBranch recur) s c b fun r ts d =>
      match r with
      | none => ts = [] ∧ d.current.kind ≠ .keyword .elseWord
      | some m => ∃ e us, ts = e :: us ∧ e.kind = .keyword .elseWord ∧
        Derives s.inFunction (.statement (.of d.current.kind)) us m := by
  apply (ensures_accept (by decide)).bind
  rintro yes us d hp hyes
  cases yes with
  | false =>
    obtain ⟨rfl, hd⟩ := hyes
    exact ensures_pure ⟨rfl, hd⟩
  | true =>
    obtain ⟨e, he, rfl⟩ := hyes
    simp only [if_true, ← bind_pure_comp]
    apply ((hrec .statement s d).mono (hb.behind (List.cons_ne_nil _ _) _)
      fun _ _ _ _ h => h).bind
    intro m vs d' hp' hm
    refine ensures_pure ⟨e, vs, by simp, he, hm⟩

theorem ensures_conditional (hrec : Sound recur room) (hb : Affords b s room)
    (hc : c.current.kind = .keyword .ifWord) :
    Ensures (conditional recur) s c b fun n ts d =>
      Derives s.inFunction (.statement (.of d.current.kind)) ts n := by
  apply (ensures_take (by rw [hc]; decide)).bind
  rintro i us d hp ⟨rfl, rfl⟩
  apply ((hrec .expression s d).mono (hb.behind (List.cons_ne_nil _ _) _)
    fun _ _ _ _ h => h).bind
  intro condition cs d₁ hp₁ hcondition
  apply (ensures_require (by decide)).bind
  rintro t us d₂ hp₂ ⟨ht, rfl⟩
  have hb₂ := (hb.after [c.current]).after cs
  apply ((hrec .statement s d₂).mono (hb₂.behind (List.cons_ne_nil _ _) _)
    fun _ _ _ _ h => h).bind
  intro n ts d₃ hp₃ hn
  apply (ensures_elseBranch hrec ((hb₂.after _).after _)).bind
  intro r vs d₄ hp₄ hr
  apply ensures_pure
  -- What was found for the first branch says whether `else` is behind it.
  cases r with
  | none =>
    obtain ⟨rfl, helse⟩ := hr
    rw [passes_nil] at hp₄
    subst hp₄
    have hnext : Follow.of d₃.current.kind ≠ .otherBranch := by
      unfold Follow.of
      rw [if_neg helse]
      split <;> decide
    simpa using Derives.oneBranch hc hcondition ht hn hnext
  | some m =>
    obtain ⟨e, us, rfl, he, hm⟩ := hr
    have hother : Follow.of d₃.current.kind = .otherBranch := by
      rw [hp₄.1, he]
      rfl
    rw [Rule.Finds, hother] at hn
    simpa using Derives.twoBranches hc hcondition ht hn he hm

theorem ensures_loop (hrec : Sound recur room) (hb : Affords b s room)
    (hc : c.current.kind = .keyword .whileWord) :
    Ensures (loop recur) s c b fun n ts d =>
      Derives s.inFunction (.statement (.of d.current.kind)) ts n := by
  apply (ensures_take (by rw [hc]; decide)).bind
  rintro w us d hp ⟨rfl, rfl⟩
  apply ((hrec .expression s d).mono (hb.behind (List.cons_ne_nil _ _) _)
    fun _ _ _ _ h => h).bind
  intro condition cs d₁ hp₁ hcondition
  apply (ensures_require (by decide)).bind
  rintro t us d₂ hp₂ ⟨ht, rfl⟩
  apply ((hrec .statement s d₂).mono (((hb.after _).after _).behind (List.cons_ne_nil _ _) _)
    fun _ _ _ _ h => h).bind
  intro n ts d₃ hp₃ hn
  apply ensures_pure
  simpa using Derives.loop hc hcondition ht hn

theorem ensures_returnValue (hrec : Sound recur room)
    (hb : b.Covers (Rule.expression.allowance room s)) :
    Ensures (returnValue recur) s c b fun r ts _ =>
      match r with
      | none => ts = []
      | some n => Derives s.inFunction .expression ts n := by
  unfold returnValue
  rw [ensures_currentKind_bind]
  split
  · exact ensures_pure rfl
  · rw [← bind_pure_comp]
    apply ((hrec .expression s c).mono hb fun _ _ _ _ h => h).bind
    intro n ts d hp hn
    apply ensures_pure
    rwa [List.append_nil]

theorem ensures_returnStatement (hrec : Sound recur room) (hb : Affords b s room)
    (hc : c.current.kind = .keyword .returnWord) :
    Ensures (returnStatement recur) s c b fun n ts d =>
      Derives s.inFunction (.statement (.of d.current.kind)) ts n := by
  unfold returnStatement
  rw [ensures_read_bind]
  split
  · rename_i hf
    apply (ensures_take (by rw [hc]; decide)).bind
    rintro t us d hp ⟨rfl, rfl⟩
    apply (ensures_returnValue hrec (hb.behind (List.cons_ne_nil _ _) _)).bind
    intro r ts d₁ hp₁ hr
    apply ensures_endStatement.bind
    intro _ es d₂ hp₂ he
    apply ensures_pure
    rw [hf] at hr ⊢
    cases r with
    | none =>
      subst hr
      simpa using Derives.ret hc he
    | some n => simpa using Derives.retValue hc hr he
  · rw [ensures_current_bind]
    exact ensures_fault ⟨c.current, by simp, rfl⟩

theorem ensures_statement (hrec : Sound recur room)
    (hb : b.Covers (Rule.expression.allowance room s)) :
    Ensures (statement recur) s c b fun n ts d =>
      Derives s.inFunction (.statement (.of d.current.kind)) ts n := by
  have hafford := Affords.of_covers hb
  unfold statement
  rw [ensures_currentKind_bind]
  split
  · rename_i h
    exact ensures_conditional hrec hafford h
  · rename_i h
    exact ensures_loop hrec hafford h
  · rename_i h
    exact ensures_returnStatement hrec hafford h
  · apply (ensures_body hrec hb.nesting hafford.room hafford.turns).bind
    rintro ⟨pos, ns⟩ ts d hp ⟨o, us, t, rfl, ho, rfl, hns, ht⟩
    apply ensures_pure
    rw [List.append_nil]
    exact .block ho hns ht
  · apply ((hrec .expression s c).mono hb fun _ _ _ _ h => h).bind
    intro n ts d hp hn
    apply ensures_endStatement.bind
    intro _ es d₁ hp₁ he
    apply ensures_pure
    simpa using Derives.expression hn he

theorem ensures_functionDeclaration (hrec : Sound recur room) (hb : Affords b s room)
    (hc : c.current.kind = .keyword .funWord) (hnext : c.next.kind = .identifier) :
    Ensures (functionDeclaration recur) s c b fun n ts d =>
      Derives s.inFunction (.declaration (.of d.current.kind)) ts n := by
  apply (ensures_take (by rw [hc]; decide)).bind
  rintro k us d hp ⟨rfl, rfl⟩
  have hd : d.current.kind = .identifier := by
    obtain ⟨-, -, d', hd', rfl⟩ := hp
    rw [advance_current hd', hnext]
  apply (ensures_take (by rw [hd]; decide)).bind
  rintro x us d₁ hp₁ ⟨rfl, rfl⟩
  apply (ensures_definition hrec ((hb.after _).after _) _ _).bind
  intro e ts d₂ hp₂ he
  apply ensures_pure
  simpa using Derives.declareFunction hc hd he

theorem ensures_varDeclaration (hrec : Sound recur room) (hb : Affords b s room)
    (hc : c.current.kind = .keyword .varWord) :
    Ensures (varDeclaration recur) s c b fun n ts d =>
      Derives s.inFunction (.declaration (.of d.current.kind)) ts n := by
  apply (ensures_take (by rw [hc]; decide)).bind
  rintro v us d hp ⟨rfl, rfl⟩
  apply (ensures_require (by decide)).bind
  rintro x us d₁ hp₁ ⟨hx, rfl⟩
  apply (ensures_require (by decide)).bind
  rintro eq us d₂ hp₂ ⟨heq, rfl⟩
  apply ((hrec .expression s d₂).mono (((hb.after _).after _).behind (List.cons_ne_nil _ _) _)
    fun _ _ _ _ h => h).bind
  intro n ts d₃ hp₃ hn
  apply ensures_endStatement.bind
  intro _ es d₄ hp₄ he
  apply ensures_pure
  simpa using Derives.declareVar hc hx heq hn he

theorem ensures_declaration (hrec : Sound recur room)
    (hb : b.Covers (Rule.statement.allowance room s)) :
    Ensures (declaration recur) s c b fun n ts d =>
      Derives s.inFunction (.declaration (.of d.current.kind)) ts n := by
  have hafford := Affords.of_covers hb
  unfold declaration
  rw [ensures_currentKind_bind, ensures_nextKind_bind]
  split
  · rename_i h
    exact ensures_functionDeclaration hrec hafford h.1 h.2
  · split
    · rename_i h
      exact ensures_varDeclaration hrec hafford h
    · exact (hrec .statement s c).mono hb fun _ _ _ _ h => .statement h

end Grammar

theorem Sound.expand {recur : Rule → Parser Node} {room : Nat} (hrec : Sound recur room) :
    Sound (Grammar.expand recur) (room + 1) := by
  intro rule s c
  have hcovers (inner : Rule) (hd : inner.depth ≤ rule.depth) (hr : inner.rank < rule.rank) :
      (rule.allowance (room + 1) s).Covers (inner.allowance room s) := by
    refine ⟨?_, ?_, Int.le_refl _, List.nil_subset _⟩ <;> simp only [Rule.allowance] <;> omega
  cases rule with
  | declaration => exact Grammar.ensures_declaration hrec (hcovers .statement (by decide) (by decide))
  | statement =>
    refine Ensures.nested (Nat.le_succ _) (Grammar.ensures_statement hrec ?_)
    refine ⟨?_, ?_, Int.le_refl _, List.nil_subset _⟩ <;>
      simp only [Rule.allowance, Rule.depth, Rule.rank] <;> omega
  | expression =>
    refine Ensures.nested (Nat.le_refl _) ((hrec .assignment _ c).mono ?_ fun _ _ _ _ h => h)
    refine ⟨?_, ?_, Int.le_refl _, List.nil_subset _⟩ <;>
      simp only [Rule.allowance, Rule.depth, Rule.rank] <;> omega
  | assignment => exact Grammar.ensures_assignment hrec (hcovers .unary (by decide) (by decide))
  | unary =>
    refine Grammar.ensures_unary hrec ⟨Nat.le_refl _, ?_, Int.le_refl _⟩
    simp only [Rule.allowance, Rule.rank]
    omega

theorem sound_parse (room : Nat) : Sound (Rule.parse room) room := by
  induction room with
  | zero =>
    intro rule s c
    refine ensures_exhausted (.inl ?_)
    cases rule <;> simp [Rule.allowance, Rule.rank]
  | succ room ih => exact ih.expand

end Scriptlet
