import Scriptlet.Proofs.Pinpointing

namespace Scriptlet

open Cursor Scriptlet.Parser Surroundings Forms

namespace Rule

def phrase : Rule → Phrase
  | declaration => .declaration .ending
  | statement => .statement .ending
  | expression | assignment => .expression
  | unary => .unary

end Rule

structure Breaks (D : List Token → Prop) (g : SyntaxFault) (us : List Token) (t : Token) : Prop where
  mendable : Mendable D g us
  opening : us = [] → t.kind ≠ .keyword .funWord

namespace Breaks

variable {D D' : List Token → Prop} {g : SyntaxFault} {us vs : List Token} {t : Token}

theorem mono (h : Breaks D g us t) (hD : ∀ xs, D xs → ∃ ys, D' (xs ++ ys)) : Breaks D' g us t :=
  ⟨h.mendable.mono hD, h.opening⟩

theorem cons {u : Token} (h : Mendable D g us) (hD : ∀ xs, D xs → ∃ ys, D' (u :: xs ++ ys)) :
    Breaks D' g (u :: us) t :=
  ⟨h.cons hD, fun hnil => absurd hnil (List.cons_ne_nil u us)⟩

theorem behind (hus : us ≠ []) (h : Mendable D g vs)
    (hD : ∀ xs, D xs → ∃ ys, D' (us ++ xs ++ ys)) : Breaks D' g (us ++ vs) t :=
  ⟨h.behind hD, fun hnil => absurd (List.append_eq_nil_iff.mp hnil).1 hus⟩

theorem missing {kind : TokenKind} {slot : Slot} {u : Token} (hus : us ≠ [])
    (h : ∃ u ws, u.kind = kind ∧ D (us ++ u :: ws)) : Breaks D (.missing kind slot u) us t :=
  ⟨.missing h, fun hnil => absurd hnil hus⟩

end Breaks

def Enclosed (l r : Symbol) (D : List Token → Prop) (ts : List Token) : Prop :=
  ∃ o us c, ts = o :: us ++ [c] ∧ o.kind = .symbol l ∧ D us ∧ c.kind = .symbol r

theorem Enclosed.closed {l r : Symbol} {D : List Token → Prop} {o : Token} {us : List Token}
    (ho : o.kind = .symbol l) (h : D us) :
    Enclosed l r D (o :: us ++ [.bare (.symbol r)]) :=
  ⟨o, us, _, rfl, ho, h, rfl⟩

def Pinned (recur : Rule → Parser Node) : Prop :=
  ∀ rule s c, EqualsPaired c.ahead →
    Pinpoints (recur rule) s c (Breaks (Forms s.inFunction rule.phrase))

def Surroundings.lavish (s : Surroundings) : Allowance :=
  ⟨s.nesting + 2, -5, 0, []⟩

namespace Surroundings

variable {s : Surroundings} {room : Nat}

theorem lavish_turns (n : Nat) : s.lavish.turns ≤ n :=
  Int.natCast_nonneg n

theorem lavish_affords : Affords s.lavish s room := by
  constructor <;> simp only [lavish] <;> omega

theorem lavish_covers (rule : Rule) : s.lavish.Covers (rule.allowance room s) := by
  refine ⟨?_, ?_, ?_, List.nil_subset _⟩ <;> simp only [lavish, Rule.allowance] <;> try omega
  all_goals cases rule <;> simp only [Rule.depth, Rule.rank] <;> omega

end Surroundings

namespace Grammar

variable {recur : Rule → Parser Node} {room : Nat} {s : Surroundings} {c : Cursor}

theorem pinpoints_endStatement {slot : Slot} (hc : EqualsPaired c.ahead) :
    Pinpoints (endStatement slot) s c fun g us t =>
      us = [] ∧ g = .missing (.symbol .semicolon) slot t := by
  apply pinpoints_currentKind_bind
  split
  · exact pinpoints_pure hc
  · refine pinpoints_require_bind (by decide) (fun _ => ⟨rfl, rfl⟩) fun t d hp ht => ?_
    exact pinpoints_pure (hp.equalsPaired ht (by decide) hc)

theorem exists_nameRow (params : List String) (hparams : params.Nodup) :
    ∃ x, NameRow [.named x] [x] ∧ (params ++ [x]).Nodup := by
  obtain ⟨x, hx⟩ := Infinite.exists_notMem_finset params.toFinset
  refine ⟨x, .last rfl, ?_⟩
  rw [List.mem_toFinset] at hx
  rw [← List.concat_eq_append]
  exact List.Nodup.concat hx hparams

def FurtherNames (params : List String) (ts : List Token) : Prop :=
  ∃ xs, NameRow ts xs ∧ (params ++ xs).Nodup

theorem pinpoints_parameter {params : List String} (hparams : params.Nodup)
    (hc : EqualsPaired c.ahead) :
    Pinpoints (parameter params) s c fun g us _ => Mendable (FurtherNames params) g us := by
  obtain ⟨x, hrow, hnodup⟩ := exists_nameRow params hparams
  by_cases hdup : c.current.kind = .identifier ∧ c.current.text ∈ params
  · -- The parser has taken the name by the time that it blames it.
    have hrun {c' : Cursor} (hc' : c'.current = c.current) :
        parameter params s c' = .error (.fault (.duplicateParameter c.current.text) c.current.pos) ∨
          ∃ e, parameter params s c' = .error (.scan e) := by
      unfold parameter
      rw [bind_apply, require_apply, if_pos (by rw [hc', hdup.1]), take_apply, hc']
      cases c'.advance with
      | error e => exact .inr ⟨e, rfl⟩
      | ok d =>
        refine .inl ?_
        simp only [hdup.2, if_true]
        rfl
    rcases hrun rfl with h | ⟨e, h⟩
    · unfold Pinpoints
      rw [h]
      have hviable : Mendable (FurtherNames params) (.duplicateParameter c.current.text) [] :=
        .of_viable rfl ⟨_, _, hrow, hnodup⟩
      refine ⟨[], c, rfl, rfl, hdup.1.symm, hviable, fun c' d' hp hd => hrun ?_⟩
      obtain rfl : c' = d' := hp
      exact hd
    · exact .of_scan h
  · refine pinpoints_require_bind (by decide)
      (fun _ => .missing ⟨_, [], rfl, _, hrow, hnodup⟩) fun t d hp ht => ?_
    have hx : t.text ∉ params := fun h => hdup (hp.1 ▸ ⟨ht, h⟩)
    rw [if_neg hx]
    exact pinpoints_pure (hp.equalsPaired ht (by decide) hc)

theorem pinpoints_parametersFrom (n : Nat) (params : List String) (hparams : params.Nodup)
    (hc : EqualsPaired c.ahead) :
    Pinpoints (parametersFrom n params) s c fun g us _ => Mendable (FurtherNames params) g us := by
  induction n generalizing params c with
  | zero => exact pinpoints_exhausted
  | succ n ih =>
    refine (pinpoints_parameter hparams hc).bind (b := s.lavish) ensures_parameter ?_
    rintro x us d hp hd ⟨t, rfl, ht, rfl, hx⟩
    refine pinpoints_accept_bind (by decide) (fun _ => pinpoints_pure hd) fun comma d' hp' hcomma => ?_
    have hnodup : (params ++ [t.text]).Nodup :=
      List.concat_eq_append ▸ List.Nodup.concat hx hparams
    refine (ih _ hnodup (hp'.equalsPaired hcomma (by decide) hd)).mono fun g vs _ _ hg => ?_
    refine (show Mendable _ g ([t, comma] ++ vs) from hg.behind ?_)
    rintro xs ⟨ys, hrow, hys⟩
    exact ⟨[], t.text :: ys, by simpa using NameRow.more ht hcomma hrow, by simpa using hys⟩

theorem pinpoints_parameterList (hc : EqualsPaired c.ahead) :
    Pinpoints parameterList s c fun g us _ => Mendable (fun ts => ∃ xs, Parameters ts xs) g us := by
  apply pinpoints_currentKind_bind
  split
  · exact pinpoints_pure hc
  · apply pinpoints_read_bind
    refine (pinpoints_parametersFrom s.length [] List.nodup_nil hc).mono fun g us _ _ hg => ?_
    refine hg.mono ?_
    rintro ts ⟨xs, hrow, hxs⟩
    exact ⟨[], xs, by simpa using Parameters.row hrow hxs⟩

theorem pinpoints_parameters (hc : EqualsPaired c.ahead) :
    Pinpoints parameters s c fun g us _ =>
      Mendable (Enclosed .leftParen .rightParen fun ts => ∃ xs, Parameters ts xs) g us := by
  refine pinpoints_require_bind (by decide) (fun _ => ?_) fun o d hp ho => ?_
  · exact .missing ⟨.bare (.symbol .leftParen), _, rfl, .closed rfl ⟨_, .none⟩⟩
  have hd := hp.equalsPaired ho (by decide) hc
  refine ((pinpoints_parameterList hd).mono fun g us _ _ hg => ?_).bind (b := s.lavish)
    (ensures_parameterList (lavish_turns _)) ?_
  · exact hg.cons fun xs hxs => ⟨_, Enclosed.closed ho hxs⟩
  intro xs us d' hp' hd' hxs
  refine pinpoints_require_bind (by decide) (fun _ => ?_) fun t d'' hp'' ht => ?_
  · exact .missing ⟨_, [], rfl, by simpa using Enclosed.closed ho ⟨xs, hxs⟩⟩
  · exact pinpoints_pure (hp''.equalsPaired ht (by decide) hd')

def RowBreaks (f : Bool) (stops : List TokenKind) (g : SyntaxFault) (us : List Token) (t : Token) :
    Prop :=
  Mendable (Forms f .declarations) g us ∨
    t.kind = .symbol .rightBrace ∧ .symbol .rightBrace ∉ stops ∧ Forms f .declarations us ∧
      ∀ u : Token, u.kind = .symbol .semicolon → Forms f .declarations (us ++ [u])

theorem RowBreaks.behind {f : Bool} {stops : List TokenKind} {g : SyntaxFault} {us vs : List Token}
    {t : Token} (h : RowBreaks f stops g vs t) (hus : Forms f (.declaration .another) us) :
    RowBreaks f stops g (us ++ vs) t := by
  refine h.imp (fun hg => hg.behind fun xs hxs => ⟨[], ?_⟩) fun ⟨ht, hstops, hvs, hsemicolon⟩ => ?_
  · rw [List.append_nil]
    exact declarations_append hus hxs
  · refine ⟨ht, hstops, declarations_append hus hvs, fun u hu => ?_⟩
    rw [List.append_assoc]
    exact declarations_append hus (hsemicolon u hu)

theorem pinpoints_manyUntil_stop {stops : List TokenKind} {item : Parser Node} {items : List Node}
    {E : SyntaxFault → List Token → Token → Prop} (n : Nat) (hk : c.current.kind ∈ stops)
    (hc : EqualsPaired c.ahead) : Pinpoints (manyUntil stops item n items) s c E := by
  cases n with
  | zero => exact pinpoints_exhausted
  | succ n =>
    apply pinpoints_currentKind_bind
    rw [if_pos (List.contains_iff_mem.mpr hk)]
    exact pinpoints_pure hc

section

variable (hrec : Sound recur room) (hpin : Pinned recur)

include hrec hpin

theorem pinpoints_manyUntil_brace {stops : List TokenKind} (n : Nat) (items : List Node)
    (hbrace : .symbol .rightBrace ∉ stops) (hc : EqualsPaired c.ahead)
    (hkind : c.current.kind = .symbol .rightBrace) :
    Pinpoints (manyUntil stops (recur .declaration) n items) s c fun g us t =>
      us = [] ∧ t = c.current ∧ Mendable (Forms s.inFunction .declarations) g us := by
  have hopening {us ws : List Token} {d : Cursor} (hp : c.Passes us d)
      (h : Forms s.inFunction (.declaration .ending) (us ++ ws)) : us = [] := by
    cases us with
    | nil => rfl
    | cons u us =>
      obtain ⟨n, hn⟩ := h
      obtain ⟨u', us', heq, hu⟩ := hn.opensWith (.inl rfl)
      obtain ⟨rfl, -⟩ := List.cons.inj heq
      rw [← hp.1, hkind] at hu
      exact absurd hu (by decide)
  cases n with
  | zero => exact pinpoints_exhausted
  | succ n =>
    apply pinpoints_currentKind_bind
    rw [if_neg (by simpa [hkind] using hbrace)]
    refine ((hpin .declaration s c hc).mono fun g us d hp hg => ?_).bind (hrec .declaration s c) ?_
    · obtain ⟨ws, hws⟩ := hg.mendable.viable
      obtain rfl := hopening hp hws
      obtain rfl : c = d := hp
      exact ⟨rfl, rfl, hg.mendable.mono fun xs hxs => ⟨[], by simpa using hxs.declarations_single⟩⟩
    · intro m us d hp hd hm
      have hending := hm.follow .ending (.inr rfl)
      have hus : Forms s.inFunction (.declaration .ending) (us ++ []) := ⟨m, by simpa using hending⟩
      exact absurd (hopening hp hus) (hm.opensWith (.inl rfl)).ne_nil

theorem pinpoints_manyUntil {stops : List TokenKind} (heof : .endOfInput ∈ stops) (n : Nat)
    (items : List Node) (hc : EqualsPaired c.ahead) :
    Pinpoints (manyUntil stops (recur .declaration) n items) s c (RowBreaks s.inFunction stops) := by
  induction n generalizing items c with
  | zero => exact pinpoints_exhausted
  | succ n ih =>
    apply pinpoints_currentKind_bind
    split
    · exact pinpoints_pure hc
    · refine ((hpin .declaration s c hc).mono fun g us d _ hg => ?_).bind (hrec .declaration s c) ?_
      · exact .inl (hg.mendable.mono fun xs hxs => ⟨[], by simpa using hxs.declarations_single⟩)
      intro m us d hp hd hm
      by_cases hstop : d.current.kind ∈ stops
      · exact pinpoints_manyUntil_stop n hstop hd
      -- What the declaration leaves for the next one to begin with.
      by_cases hending : Follow.of d.current.kind = .ending
      · have hbrace : d.current.kind = .symbol .rightBrace :=
          (Follow.of_eq_ending.mp hending).resolve_right fun h => hstop (h ▸ heof)
        refine (pinpoints_manyUntil_brace hrec hpin n _ (hbrace ▸ hstop) hd hbrace).mono ?_
        rintro g vs d' - ⟨rfl, htoken, hg⟩
        rcases hm.another with hanother | hsemicolon
        · exact .inl (hg.behind fun xs hxs => ⟨[], by simpa using declarations_append ⟨m, hanother⟩ hxs⟩)
        · refine .inr ⟨htoken ▸ hbrace, hbrace ▸ hstop, ?_, fun u hu => ?_⟩
          · rw [List.append_nil]
            exact declarations_single ⟨m, hm.follow .ending (.inr rfl)⟩
          · rw [List.append_nil]
            exact declarations_single ⟨m, (hsemicolon u hu).follow .ending (.inr rfl)⟩
      · have hanother : Forms s.inFunction (.declaration .another) us := by
          cases hfollow : Follow.of d.current.kind with
          | another => exact ⟨m, hfollow ▸ hm⟩
          | otherBranch => exact ⟨m, hm.follow .another (.inl hfollow)⟩
          | ending => exact absurd hfollow hending
        exact (ih (m :: items) hd).mono fun g vs d' _ hg => hg.behind hanother

theorem pinpoints_statements (hc : EqualsPaired c.ahead) :
    Pinpoints
      (do manyUntil [.symbol .rightBrace, .endOfInput] (recur .declaration) (← read).length [])
      s c fun g us _ => Mendable (Forms s.inFunction .declarations) g us := by
  apply pinpoints_read_bind
  refine (pinpoints_manyUntil hrec hpin (by decide) s.length [] hc).mono fun g us d _ hg => ?_
  exact hg.resolve_right fun h => h.2.1 (by decide)

theorem pinpoints_body (hc : EqualsPaired c.ahead) :
    Pinpoints (body recur) s c fun g us _ =>
      Mendable (Enclosed .leftBrace .rightBrace (Forms s.inFunction .declarations)) g us := by
  refine pinpoints_require_bind (by decide) (fun _ => ?_) fun o d hp ho => ?_
  · exact .missing ⟨.bare (.symbol .leftBrace), _, rfl, .closed rfl ⟨_, .noDeclarations⟩⟩
  have hd := hp.equalsPaired ho (by decide) hc
  let s' : Surroundings := { s with nesting := s.nesting + 1 }
  have hstatements := (pinpoints_statements (s := s') hrec hpin hd).nested
  have hensures := (ensures_statements (s := s') (c := d) hrec (lavish_turns _)
    (lavish_covers .declaration)).nested (by simp only [lavish, s']; omega)
  refine (hstatements.mono fun g us _ _ hg => ?_).bind hensures ?_
  · exact hg.cons fun xs hxs => ⟨_, Enclosed.closed ho hxs⟩
  intro ns us d' hp' hd' hns
  refine pinpoints_require_bind (by decide) (fun _ => ?_) fun t d'' hp'' ht => ?_
  · exact .missing ⟨_, [], rfl, by simpa using Enclosed.closed ho ⟨ns, hns⟩⟩
  · exact pinpoints_pure (hp''.equalsPaired ht (by decide) hd')

theorem pinpoints_definition (hc : EqualsPaired c.ahead) (pos : Position) (name : Option String) :
    Pinpoints (definition recur pos name) s c fun g us _ =>
      Mendable (Forms s.inFunction (.definition pos name)) g us := by
  have hwhole {ts us : List Token}
      (hts : Enclosed .leftParen .rightParen (fun ts => ∃ xs, Parameters ts xs) ts)
      (hus : Enclosed .leftBrace .rightBrace (Forms true .declarations) us) :
      Forms s.inFunction (.definition pos name) (ts ++ us) := by
    obtain ⟨po, ps, pc, rfl, hpo, ⟨xs, hxs⟩, hpc⟩ := hts
    obtain ⟨bo, bs, bc, rfl, hbo, ⟨ns, hns⟩, hbc⟩ := hus
    exact ⟨_, by simpa using Derives.definition hpo hxs hpc hbo hns hbc⟩
  refine ((pinpoints_parameters hc).mono fun g us _ _ hg => ?_).bind (b := s.lavish)
    (ensures_parameters (lavish_turns _)) ?_
  · exact hg.mono fun xs hxs => ⟨_, hwhole hxs (.closed (o := .bare (.symbol .leftBrace)) rfl
      ⟨_, .noDeclarations⟩)⟩
  rintro xs us d hp hd ⟨po, ps, pc, rfl, hpo, hxs, hpc⟩
  let f (r : Position × List Node) : Definition := ⟨pos, name, xs, r.1, r.2⟩
  refine Pinpoints.map (f := f) ?_
  refine (pinpoints_body (s := { s with inFunction := true }) hrec hpin hd).inFunction.mono
    fun g vs _ _ hg => hg.behind fun ys hys => ⟨[], ?_⟩
  rw [List.append_nil]
  exact hwhole ⟨po, ps, pc, rfl, hpo, ⟨xs, hxs⟩, hpc⟩ hys

end

end Grammar

end Scriptlet
