import Scriptlet.Proofs.JoinedSources
import Scriptlet.Proofs.LikeStreams
import Scriptlet.Proofs.TokenOrigins

namespace Scriptlet

open Scriptlet.Cursor Scriptlet.Parser

namespace Cursor

variable {c c' : Cursor}

theorem advance_eq_ofStream (h : c.error = none) :
    c.advance = ofStream ⟨c.next :: c.rest, none⟩ := by
  obtain ⟨current, next, rest, error⟩ := c
  subst h
  rfl

theorem advance_of_rest (h : c.error = none) (hrest : c.rest ≠ []) :
    ∃ d, c.advance = .ok d ∧ d.error = none ∧ d.current :: d.next :: d.rest = c.next :: c.rest := by
  obtain ⟨current, next, rest, error⟩ := c
  subst h
  obtain ⟨t, ts, rfl⟩ := List.exists_cons_of_ne_nil hrest
  exact ⟨_, rfl, rfl, rfl⟩

theorem ofStream_cons (t : Token) (ts : List Token) :
    ∃ c, ofStream ⟨t :: ts, none⟩ = .ok c ∧ c.current = t := by
  cases ts <;> exact ⟨_, rfl, rfl⟩

theorem ofStream_tokens {ts : List Token} (h : 2 ≤ ts.length) :
    ∃ c, ofStream ⟨ts, none⟩ = .ok c ∧ c.error = none ∧ c.current :: c.next :: c.rest = ts := by
  match ts, h with
  | t :: u :: us, _ => exact ⟨⟨t, u, us, none⟩, rfl, rfl, rfl⟩

structure Leads (eof : Token) (us : List Token) (c c' : Cursor) : Prop where
  left : c.error = none
  right : c'.error = none
  tokens : ∃ ts t, (∀ u ∈ ts, u.kind ≠ .endOfInput) ∧ t.kind = .symbol .semicolon ∧
    c.current :: c.next :: c.rest = ts ++ [t, eof] ∧ c'.current :: c'.next :: c'.rest = ts ++ t :: us

namespace Leads

variable {eof u : Token} {us : List Token}

theorem current (h : c.Leads eof us c') :
    c.current = c'.current ∧ c.current.kind ≠ .endOfInput := by
  obtain ⟨ts, t, hts, ht, hc, hc'⟩ := h.tokens
  cases ts with
  | nil =>
    simp only [List.nil_append, List.cons.injEq] at hc hc'
    exact ⟨hc.1.trans hc'.1.symm, by rw [hc.1, ht]; decide⟩
  | cons v ts =>
    simp only [List.cons_append, List.cons.injEq] at hc hc'
    exact ⟨hc.1.trans hc'.1.symm, hc.1 ▸ hts v List.mem_cons_self⟩

theorem next (h : c.Leads eof us c') (hk : c.current.kind = .keyword .funWord) : c.next = c'.next := by
  obtain ⟨ts, t, -, ht, hc, hc'⟩ := h.tokens
  match ts with
  | [] =>
    simp only [List.nil_append, List.cons.injEq] at hc
    rw [hc.1, ht] at hk
    cases hk
  | [v] =>
    simp only [List.cons_append, List.nil_append, List.cons.injEq] at hc hc'
    rw [hc.2.1, hc'.2.1]
  | v :: w :: ts =>
    simp only [List.cons_append, List.cons.injEq] at hc hc'
    rw [hc.2.1, hc'.2.1]

theorem advance (h : c.Leads eof (u :: us) c') :
    ∃ d d', c.advance = .ok d ∧ c'.advance = .ok d' ∧ (d.Leads eof (u :: us) d' ∨
      c.current.kind = .symbol .semicolon ∧ d.current = eof ∧ ofStream ⟨u :: us, none⟩ = .ok d') := by
  obtain ⟨hleft, hright, ts, t, hts, ht, hc, hc'⟩ := h
  cases ts with
  | nil =>
    simp only [List.nil_append, List.cons.injEq] at hc hc'
    obtain ⟨hcurrent, hnext, hrest⟩ := hc
    obtain ⟨d', hd', -⟩ := ofStream_cons u us
    refine ⟨⟨eof, eof.endBehind, [], none⟩, d', ?_, ?_, .inr ⟨hcurrent ▸ ht, rfl, hd'⟩⟩
    · rw [advance_eq_ofStream hleft, hnext, hrest]
      rfl
    · rw [advance_eq_ofStream hright, hc'.2.1, hc'.2.2, hd']
  | cons v ts =>
    simp only [List.cons_append, List.cons.injEq] at hc hc'
    have hrest : c.rest ≠ [] := by
      intro hnil
      have hlength := congrArg List.length hc.2
      simp [hnil] at hlength
    have hrest' : c'.rest ≠ [] := by
      intro hnil
      have hlength := congrArg List.length hc'.2
      simp only [hnil, List.length_append, List.length_cons, List.length_nil] at hlength
      omega
    obtain ⟨d, hd, hdleft, hdtokens⟩ := advance_of_rest hleft hrest
    obtain ⟨d', hd', hdright, hdtokens'⟩ := advance_of_rest hright hrest'
    refine ⟨d, d', hd, hd', .inl ⟨hdleft, hdright, ts, t, ?_, ht, ?_, ?_⟩⟩
    · exact fun w hw => hts w (List.mem_cons_of_mem v hw)
    · rw [hdtokens, hc.2]
    · rw [hdtokens', hc'.2]

end Leads

end Cursor

def TokenStream.lastKind? (s : TokenStream) : Option TokenKind :=
  s.tokens.dropLast.getLast?.map (·.kind)

theorem Pairing.lined_down (lines : Nat) : (down lines).Lined := by
  intro p p' k h
  obtain rfl := Option.some.inj h
  rfl

def joinedReading (eof u : Token) (us : List Token) (heof : eof.kind = .endOfInput)
    (hu : u.kind ≠ .keyword .elseWord) : Reading where
  pairing := .identity
  token := Eq
  near := Cursor.Leads eof (u :: us)
  apart c c' := c.current = eof ∧ Cursor.ofStream ⟨u :: us, none⟩ = .ok c'
  same _ _ := True
  lost _ := True
  token_corresponds := Token.corresponds_of_eq
  near_current h := h.current.1
  near_next h hk := h.next hk ▸ Iff.rfl
  near_advance h _ := by
    obtain ⟨d, d', hd, hd', hend⟩ := h.advance
    exact .inl ⟨d, d', hd, hd', hend⟩
  apart_ended h := by
    obtain ⟨c, hc, hcurrent⟩ := Cursor.ofStream_cons u us
    obtain rfl := Except.ok.inj (hc.symm.trans h.2)
    exact ⟨h.1 ▸ heof, hcurrent ▸ hu, fun _ => trivial⟩
  same_fault _ _ := trivial
  same_exhausted _ := trivial

namespace Grammar

variable {s : Surroundings} {c : Cursor}

theorem manyUntil_items (stops : List TokenKind) (item : Parser Node) (n : Nat) (items : List Node) :
    manyUntil stops item n items s c =
      (manyUntil stops item n [] s c).map fun r => (items.reverse ++ r.1, r.2) := by
  induction n generalizing items c with
  | zero => rfl
  | succ n ih =>
    by_cases hc : c.current.kind ∈ stops
    · rw [manyUntil_of (Nat.succ_pos n) hc, manyUntil_of (Nat.succ_pos n) hc]
      simp [Except.map]
    · rw [Reading.manyUntil_item hc, Reading.manyUntil_item hc, bind_apply, bind_apply]
      cases item s c with
      | error e => rfl
      | ok r =>
        simp only
        rw [ih (r.1 :: items), ih [r.1]]
        cases manyUntil stops item n [] s r.2 <;> simp [Except.map]

end Grammar

namespace Derives

theorem length_declarations {f : Bool} {ts : List Token} {ns : List Node}
    (h : Derives f .declarations ts ns) : ns.length ≤ ts.length := by
  induction ns generalizing ts with
  | nil => exact Nat.zero_le _
  | cons n ns ih =>
    cases h with
    | lastDeclaration h => exact List.length_pos_iff.mpr (h.opensWith (.inl rfl)).ne_nil
    | moreDeclarations h hs _ =>
      have hpos := List.length_pos_iff.mpr (h.opensWith (.inl rfl)).ne_nil
      have hns := ih hs
      rw [List.length_append, List.length_cons]
      omega

end Derives

namespace Program

section

variable {room : Nat} {N : Int} {ts : List Token} {p : Program}

theorem derives_of_ofTokens {eof : Token} (hts : ∀ t ∈ ts, t.kind ≠ .endOfInput)
    (heof : eof.kind = .endOfInput) (h : ofTokens room N ⟨ts ++ [eof], none⟩ = .ok p) :
    Derives false .declarations ts p.statements := by
  obtain ⟨c, hc, hfaces⟩ : ∃ c, ofStream ⟨ts ++ [eof], none⟩ = .ok c ∧ c.Faces ts eof :=
    ofStream_faces heof
  obtain ⟨c', -, d, hc', -, -, hd, -⟩ := declarations_of_ofTokens h
  obtain rfl := Except.ok.inj (hc.symm.trans hc')
  exact derives_of_declarations hts heof hfaces hd

theorem ofTokens_cut (hts : ∀ t ∈ ts, t.kind ≠ .endOfInput) (e : ScanError) :
    ofTokens room N ⟨ts, some e⟩ ≠ .ok p := by
  intro h
  obtain ⟨c, us, d, hc, hpasses, hend, -⟩ := declarations_of_ofTokens h
  have hconsists : TokenStream.Consists (·.kind ≠ .endOfInput) (fun _ => True) ⟨ts, some e⟩ :=
    ⟨hts, fun _ _ => trivial, nofun⟩
  have hsees := hconsists.ofStream
  rw [hc] at hsees
  exact (hsees.passes hpasses).2.current hend

theorem tokens_of_ofTokens {source : String} (h : ofTokens room N (.ofSource source) = .ok p) :
    ∃ ts eof, (∀ t ∈ ts, t.kind ≠ .endOfInput) ∧ eof.kind = .endOfInput ∧
      TokenStream.ofSource source = ⟨ts ++ [eof], none⟩ := by
  obtain ⟨ts, hts, ⟨e, hcut⟩ | ⟨eof, heof, hstream⟩⟩ := TokenStream.ofSource_closed source
  · rw [hcut] at h
    exact absurd h (ofTokens_cut hts e)
  · exact ⟨ts, eof, hts, heof, hstream⟩

end

theorem declarations_ahead {room : Nat} {N : Int} {length length' : Nat} {eof u : Token} {us : List Token}
    (heof : eof.kind = .endOfInput) (hu : u.kind ≠ .keyword .elseWord) {c c' d : Cursor}
    (hc : c.Leads eof (u :: us) c') {ns : List Node}
    (h : declarations room N length c = .ok (ns, d)) (hd : d.current.kind = .endOfInput)
    (hlength : length ≤ length') :
    ∃ k d', k + ns.length = length' ∧ ofStream ⟨u :: us, none⟩ = .ok d' ∧
      declarations room N length' c' =
        manyUntil [.endOfInput] (Rule.parse room .declaration) k ns.reverse ⟨N, 0, false, length'⟩ d' := by
  let σ := joinedReading eof u us heof hu
  have hs : σ.Around ⟨N, 0, false, length⟩ ⟨N, 0, false, length'⟩ :=
    ⟨rfl, rfl, .inr ⟨hlength, fun _ => trivial⟩, fun _ => id, fun _ => .inl trivial⟩
  have hloops := σ.loops_declarations room hs hc
  rw [h] at hloops
  generalize hx : declarations room N length' c' = x at hloops ⊢
  cases hloops with
  | together h =>
    cases h with
    | result hns hnear => exact absurd hd hnear.current.2
  | @ahead _ ns' _ d' k hns hapart hk =>
    obtain rfl := Node.likes_eq Pairing.exact_identity hns
    exact ⟨k, d', hk, hapart.2, rfl⟩

theorem declarations_like {ρ : Pairing} (hρ : ρ.Lined) {room : Nat} {N : Int} {length length' k : Nat}
    {c c' d : Cursor} (hc : c.Like ρ c') {ns : List Node}
    (h : declarations room N length c = .ok (ns, d)) (hlength : length ≤ length') (hk : length ≤ k) :
    ∃ ns' d', manyUntil [.endOfInput] (Rule.parse room .declaration) k [] ⟨N, 0, false, length'⟩ c' =
        .ok (ns', d') ∧ List.Forall₂ (Node.Like ρ) ns ns' := by
  let σ := likeReading ρ hρ fun _ => True
  have hs : σ.Around ⟨N, 0, false, length⟩ ⟨N, 0, false, length'⟩ :=
    ⟨rfl, rfl, .inr ⟨hlength, fun _ => trivial⟩, fun _ => id, fun _ => .inl trivial⟩
  have hloops := σ.loops_manyUntil (List.mem_singleton_self TokenKind.endOfInput)
    (fun c c' => σ.parallel_parse room .declaration _ _ c c' hs) (.inr ⟨hk, fun _ => trivial⟩) .nil
    (.inl hc)
  have hbeside := hloops.beside fun _ _ => id
  rw [declarations] at h
  rw [h] at hbeside
  generalize manyUntil _ _ k [] _ c' = x at hbeside ⊢
  cases hbeside with
  | result hns _ => exact ⟨_, _, rfl, hns⟩

theorem ofTokens_append {ρ : Pairing} (hρ : ρ.Lined) {room : Nat} {N : Int} {ts vs us : List Token}
    {t eof eof' : Token} {p q : Program} (hts : ∀ u ∈ ts, u.kind ≠ .endOfInput)
    (ht : t.kind = .symbol .semicolon) (heof : eof.kind = .endOfInput)
    (hvs : ∀ u ∈ vs, u.kind ≠ .endOfInput) (heof' : eof'.kind = .endOfInput)
    (hp : ofTokens room N ⟨ts ++ [t] ++ [eof], none⟩ = .ok p)
    (hq : ofTokens room N ⟨vs ++ [eof'], none⟩ = .ok q) (hne : q.statements ≠ [])
    (hus : List.Forall₂ (Token.Like ρ) (vs ++ [eof']) us) :
    ∃ ns, ofTokens room N ⟨ts ++ t :: us, none⟩ = .ok ⟨p.statements ++ ns⟩ ∧
      List.Forall₂ (Node.Like ρ) q.statements ns := by
  have hts' : ∀ u ∈ ts ++ [t], u.kind ≠ .endOfInput := by
    simp only [List.mem_append, List.mem_singleton]
    rintro u (hu | rfl)
    · exact hts u hu
    · rw [ht]
      decide
  have hpderives := derives_of_ofTokens hts' heof hp
  have hqderives := derives_of_ofTokens hvs heof' hq
  obtain ⟨c, -, d, hc, -, hdend, hd, -⟩ := declarations_of_ofTokens hp
  obtain ⟨c₂, -, d₂, hc₂, -, -, hd₂, -⟩ := declarations_of_ofTokens hq
  -- The second program begins with a token that continues no statement.
  obtain ⟨v, vs, rfl, hv⟩ : OpensWith Phrase.declarations.openings vs := by
    refine hqderives.opensWith (.inr ?_)
    rintro rfl
    exact hne hqderives.declarations_nil
  obtain ⟨u, us, hu, -, rfl⟩ := List.forall₂_cons_left_iff.mp hus
  have huelse : u.kind ≠ .keyword .elseWord := by
    intro helse
    rw [hu.kind, helse] at hv
    revert hv
    decide
  obtain ⟨c', hc', hlead⟩ : ∃ c', ofStream ⟨ts ++ t :: u :: us, none⟩ = .ok c' ∧
      c.Leads eof (u :: us) c' := by
    obtain ⟨c₁, hc₁, hleft, hctokens⟩ := ofStream_tokens
      (show 2 ≤ (ts ++ [t] ++ [eof]).length by simp)
    obtain ⟨c', hc', hright, hctokens'⟩ := ofStream_tokens
      (show 2 ≤ (ts ++ t :: u :: us).length by simp; omega)
    obtain rfl := Except.ok.inj (hc₁.symm.trans hc)
    exact ⟨c', hc', hleft, hright, ts, t, hts, ht, by rw [hctokens, List.append_assoc]; rfl, hctokens'⟩
  have hlength : (ts ++ [t] ++ [eof]).length + 1 ≤ (ts ++ t :: u :: us).length + 1 := by
    simp only [List.length_append, List.length_cons, List.length_nil]
    omega
  -- The longer source has all of the first program and then stands in front of the second one.
  obtain ⟨k, d', hk, hd', hahead⟩ := declarations_ahead heof huelse hlead hd hdend hlength
  have hcons : v :: vs ++ [eof'] = [] → ρ.position (some .start) (some .start) := nofun
  obtain ⟨_, _, hc₂', hd'', hlike⟩ := like_ofStream hρ hcons hus
  obtain rfl := Except.ok.inj (hc₂'.symm.trans hc₂)
  obtain rfl := Except.ok.inj (hd''.symm.trans hd')
  -- The turns that are left suffice for the second program.
  have hturns := hpderives.length_declarations
  have hsame := hus.length_eq
  simp only [List.length_append, List.length_cons, List.length_nil] at hk hturns hsame
  have hlength₂ : (v :: vs ++ [eof']).length + 1 ≤ (ts ++ t :: u :: us).length + 1 := by
    simp only [List.length_append, List.length_cons, List.length_nil]
    omega
  have hk₂ : (v :: vs ++ [eof']).length + 1 ≤ k := by
    simp only [List.length_append, List.length_cons, List.length_nil]
    omega
  obtain ⟨ns, e, hns, hnodes⟩ := declarations_like hρ hlike hd₂ hlength₂ hk₂
  refine ⟨ns, ?_, hnodes⟩
  rw [ofTokens_eq hc', hahead, Grammar.manyUntil_items, hns]
  simp [Except.map]

theorem ofTokens_joined {room : Nat} {N : Int} {source source' : String} {p q : Program}
    (hp : ofTokens room N (.ofSource source) = .ok p)
    (hq : ofTokens room N (.ofSource source') = .ok q)
    (hlast : (TokenStream.ofSource source).lastKind? = some (.symbol .semicolon))
    (hne : q.statements ≠ []) :
    ∃ ns, ofTokens room N (.ofSource (source ++ "\n" ++ source')) = .ok ⟨p.statements ++ ns⟩ ∧
      List.Forall₂ (Node.Like (.down (source.toList.count '\n' + 1))) q.statements ns := by
  obtain ⟨ts, eof, hts, heof, hstream⟩ := tokens_of_ofTokens hp
  obtain ⟨vs, eof', hvs, heof', hstream'⟩ := tokens_of_ofTokens hq
  obtain ⟨us, hjoined, hus⟩ := TokenStream.ofSource_joined hstream (congrArg TokenStream.error hstream')
  rw [hstream] at hp hlast
  rw [hstream'] at hq hus
  obtain ⟨ts, t, rfl, ht⟩ : ∃ ts' t, ts = ts' ++ [t] ∧ t.kind = .symbol .semicolon := by
    obtain ⟨t, hlast, ht⟩ := Option.map_eq_some_iff.mp hlast
    rw [List.dropLast_concat] at hlast
    obtain ⟨ts', rfl⟩ := List.getLast?_eq_some_iff.mp hlast
    exact ⟨ts', t, rfl, ht⟩
  rw [hjoined, List.append_assoc]
  exact ofTokens_append (Pairing.lined_down _) (fun u hu => hts u (List.mem_append_left _ hu)) ht heof
    hvs heof' hp hq hne hus

end Program

end Scriptlet
