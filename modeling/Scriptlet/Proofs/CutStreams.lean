import Mathlib.Data.Nat.Find
import Scriptlet.Proofs.JoinedPrograms

/-!
A stream of tokens that an error cuts short. The parser asks for the token behind the next one when it
takes the current one; an error of its own that comes before it has asked for the missing token does
not depend on what is missing.
-/

namespace Scriptlet

open Scriptlet.Cursor Scriptlet.Parser

namespace Cursor

structure Cut (e : ScanError) (c c' : Cursor) : Prop where
  error : c.error = some e
  current : c.current = c'.current
  next : c.next = c'.next
  rest : c.rest <+: c'.rest

variable {e : ScanError} {c c' d : Cursor} {ts us vs : List Token}

theorem advance_cut (h : c.error = some e) (hrest : c.rest = []) : c.advance = .error e := by
  unfold advance
  rw [hrest, h]
  rfl

theorem advance_cons {t : Token} (h : c.rest = t :: ts) :
    c.advance = .ok ⟨c.next, t, ts, c.error⟩ := by
  unfold advance
  rw [h]
  rfl

theorem Cut.advance (h : Cut e c c') :
    c.advance = .error e ∨ ∃ d d', c.advance = .ok d ∧ c'.advance = .ok d' ∧ Cut e d d' := by
  obtain ⟨us, hus⟩ := h.rest
  cases hc : c.rest with
  | nil => exact .inl (advance_cut h.error hc)
  | cons t ts =>
    rw [hc, List.cons_append] at hus
    exact .inr ⟨_, _, advance_cons hc, advance_cons hus.symm,
      h.error, h.next, rfl, List.prefix_append ts us⟩

theorem Passes.tokens (h : c.Passes us d) (he : c.error = some e) :
    d.error = some e ∧ c.current :: c.next :: c.rest = us ++ d.current :: d.next :: d.rest := by
  induction us generalizing c with
  | nil => exact h ▸ ⟨he, rfl⟩
  | cons u us ih =>
    obtain ⟨rfl, -, c', hc, h⟩ := h
    cases hrest : c.rest with
    | nil =>
      rw [advance_cut he hrest] at hc
      cases hc
    | cons t ts =>
      rw [advance_cons hrest] at hc
      obtain rfl := Except.ok.inj hc
      obtain ⟨hd, htokens⟩ := ih h he
      exact ⟨hd, congrArg _ htokens⟩

end Cursor

def cutReading (e : ScanError) : Reading where
  pairing := .identity
  token := Eq
  near := Cut e
  apart _ _ := False
  same := Eq
  lost err := err = .scan e ∨ ∃ pos, err = .exhausted pos
  token_corresponds := Token.corresponds_of_eq
  near_current h := h.current
  near_next h _ := h.next ▸ Iff.rfl
  near_advance h _ := by
    rcases h.advance with he | ⟨d, d', hd, hd', hcut⟩
    · exact .inr ⟨e, he, .inl (.inl rfl)⟩
    · exact .inl ⟨d, d', hd, hd', .inl hcut⟩
  apart_ended := Ended.of_false
  same_fault hf hp := hf.fault_eq hp
  same_exhausted hp := ParseError.exhausted_eq hp

def ParseError.Blames (maxNesting : Int) (ts : List Token) : ParseError → Prop
  | fault _ pos => ∃ t ∈ ts, pos = t.pos
  | nesting limit pos => limit = maxNesting ∧ ∃ t ∈ ts, pos = t.pos
  | scan _ | exhausted _ => False

namespace Program

variable {room : Nat} {N : Int} {e : ScanError} {ts : List Token} {r : ParseError}

theorem ofTokens_unseen {s : TokenStream} (h : ofStream s = .error e) :
    ofTokens room N s = .error (.scan e) := by
  unfold ofTokens
  rw [h]
  rfl

theorem ofTokens_short (h : ts.length ≤ 1) (e : ScanError) :
    ofTokens room N ⟨ts, some e⟩ = .error (.scan e) := by
  apply ofTokens_unseen
  cases ts with
  | nil => rfl
  | cons t ts =>
    obtain rfl : ts = [] := List.eq_nil_of_length_eq_zero (Nat.le_zero.mp (Nat.le_of_succ_le_succ h))
    rfl

theorem ofTokens_prefix (room : Nat) (N : Int) (ts : List Token) (e : ScanError) (us : List Token)
    (err : Option ScanError) :
    ofTokens room N ⟨ts, some e⟩ = .error (.scan e) ∨
      (∃ pos, ofTokens room N ⟨ts, some e⟩ = .error (.exhausted pos)) ∨
      ofTokens room N ⟨ts ++ us, err⟩ = ofTokens room N ⟨ts, some e⟩ := by
  match ts with
  | [] | [_] => exact .inl (ofTokens_short (by simp) e)
  | t :: u :: ts =>
    -- Both parsers run side by side until the shorter stream is over.
    let σ := cutReading e
    have hlength : (t :: u :: ts).length + 1 ≤ (t :: u :: (ts ++ us)).length + 1 := by simp
    have hs : σ.Around ⟨N, 0, false, (t :: u :: ts).length + 1⟩
        ⟨N, 0, false, (t :: u :: (ts ++ us)).length + 1⟩ :=
      ⟨rfl, rfl, .inr ⟨hlength, fun p => .inr ⟨p, rfl⟩⟩, fun _ => id,
        fun h => .inr ⟨rfl, by rw [Option.some.inj h]; rfl⟩⟩
    have hnear : σ.near ⟨t, u, ts, some e⟩ ⟨t, u, ts ++ us, err⟩ :=
      ⟨rfl, rfl, rfl, List.prefix_append ts us⟩
    have hbeside := (σ.loops_declarations room hs hnear).beside fun _ _ => id
    rw [ofTokens_eq (c := ⟨t, u, ts, some e⟩) rfl]
    rw [List.cons_append, List.cons_append, ofTokens_eq (c := ⟨t, u, ts ++ us, err⟩) rfl]
    generalize declarations room N _ ⟨t, u, ts, some e⟩ = x at hbeside ⊢
    generalize declarations room N _ ⟨t, u, ts ++ us, err⟩ = x' at hbeside ⊢
    cases hbeside with
    | same h => exact .inr (.inr (congrArg _ (congrArg _ h.symm)))
    | lost h =>
      rcases h with rfl | ⟨pos, rfl⟩
      · exact .inl rfl
      · exact .inr (.inl ⟨pos, rfl⟩)
    | result hns hd =>
      rw [Node.likes_eq Pairing.exact_identity hns]
      exact .inr (.inr rfl)

theorem blames_of_ofTokens (h : ofTokens room N ⟨ts, some e⟩ = .error r) :
    r = .scan e ∨ r.Blames N ts.dropLast ∨ (∃ pos, r = .exhausted pos) ∧ room < 5 * ts.length + 5 := by
  match ts with
  | [] | [_] =>
    rw [ofTokens_short (by simp)] at h
    exact .inl (Except.error.inj h).symm
  | t :: u :: ts =>
    rcases exists_reason_of_ofTokens h with ⟨err, hstream, -⟩ | ⟨c, us, d, hstream, hpasses, hreason⟩
    · cases hstream
    obtain rfl : ⟨t, u, ts, some e⟩ = c := Except.ok.inj hstream
    obtain ⟨hderror, htokens⟩ := hpasses.tokens rfl
    simp only at htokens
    have hlength := congrArg List.length htokens
    simp only [List.length_append, List.length_cons] at hlength
    have hmem : ∀ v ∈ us ++ [d.current], v ∈ (t :: u :: ts).dropLast := by
      intro v hv
      rw [htokens, List.append_cons, List.dropLast_append_of_ne_nil (by exact List.cons_ne_nil _ _)]
      exact List.mem_append_left _ hv
    cases r with
    | scan err =>
      left
      have hadvance : d.advance = .error err := hreason
      cases hrest : d.rest with
      | nil =>
        rw [advance_cut hderror hrest] at hadvance
        rw [Except.error.inj hadvance]
      | cons v vs =>
        rw [advance_cons hrest] at hadvance
        cases hadvance
    | fault f pos =>
      obtain ⟨v, hv, rfl⟩ := hreason
      exact .inr (.inl ⟨v, hmem v hv, rfl⟩)
    | nesting limit pos =>
      obtain ⟨hlimit, rfl, -⟩ := hreason
      exact .inr (.inl ⟨hlimit, d.current, hmem _ (by simp), rfl⟩)
    | exhausted pos =>
      obtain ⟨-, hused⟩ := hreason
      simp only [List.length_cons] at hused ⊢
      exact .inr (.inr ⟨⟨pos, rfl⟩, by omega⟩)

/-- The parser ends with an error `r` of its own where the token number `k` is the current one and the
next one is the last that it has asked for: no token behind that matters, and each one up to it does. -/
structure EndsAt (room : Nat) (N : Int) (ts : List Token) (k : Nat) (r : ParseError) : Prop where
  blames : r.Blames N (ts.take (k + 1))
  asks : ∀ j ≤ k + 1, ∀ e, ofTokens room N ⟨ts.take j, some e⟩ = .error (.scan e)
  ends : ∀ us err, ofTokens room N ⟨ts.take (k + 2) ++ us, err⟩ = .error r

theorem ofTokens_scan (hroom : 5 * ts.length + 5 ≤ room) {e : ScanError}
    (h : ofTokens room N ⟨ts, some e⟩ = .error (.scan e)) (err : ScanError) :
    ofTokens room N ⟨ts, some err⟩ = .error (.scan err) := by
  rcases ofTokens_prefix room N ts err [] (some e) with hscan | ⟨pos, hexhausted⟩ | hsame
  · exact hscan
  · rcases blames_of_ofTokens hexhausted with hr | hr | ⟨-, hr⟩
    · cases hr
    · exact hr.elim
    · omega
  · rw [List.append_nil, h] at hsame
    rcases blames_of_ofTokens hsame.symm with hr | hr | ⟨⟨_, hr⟩, -⟩
    · rw [← hsame, hr]
    · exact hr.elim
    · cases hr

theorem exists_endsAt (hroom : 5 * ts.length + 5 ≤ room)
    (hts : ∀ t ∈ ts, t.kind ≠ .endOfInput)
    (h : ofTokens room N ⟨ts, some e⟩ ≠ .error (.scan e)) :
    ∃ k r, k + 2 ≤ ts.length ∧ EndsAt room N ts k r := by
  classical
  -- The least number of tokens behind which the error that cuts them off does not come out.
  have hexists : ∃ m, ofTokens room N ⟨ts.take m, some e⟩ ≠ .error (.scan e) :=
    ⟨ts.length, by rwa [List.take_length]⟩
  obtain ⟨m, hm, hleast⟩ : ∃ m, ofTokens room N ⟨ts.take m, some e⟩ ≠ .error (.scan e) ∧
      ∀ j < m, ofTokens room N ⟨ts.take j, some e⟩ = .error (.scan e) :=
    ⟨Nat.find hexists, Nat.find_spec hexists, fun j hj => not_not.mp (Nat.find_min hexists hj)⟩
  have htake (j : Nat) : 5 * (ts.take j).length + 5 ≤ room := by
    rw [List.length_take]
    omega
  have hlong : 2 ≤ m := by
    by_contra hshort
    exact hm (ofTokens_short (by rw [List.length_take]; omega) e)
  have hle : m ≤ ts.length := by
    by_contra hgt
    apply hm
    have := hleast ts.length (by omega)
    rwa [List.take_of_length_le (by omega), ← List.take_length (l := ts)]
  obtain ⟨k, rfl⟩ : ∃ k, m = k + 2 := ⟨m - 2, by omega⟩
  cases hr : ofTokens room N ⟨ts.take (k + 2), some e⟩ with
  | ok p => exact absurd hr (ofTokens_cut (fun t ht => hts t (List.mem_of_mem_take ht)) e)
  | error r =>
    refine ⟨k, r, hle, ?_, fun j hj err => ofTokens_scan (htake j) (hleast j (by omega)) err, ?_⟩
    · rcases blames_of_ofTokens hr with rfl | hblames | ⟨-, hroom'⟩
      · exact absurd hr hm
      · rwa [List.dropLast_eq_take, List.take_take, List.length_take, Nat.min_eq_left hle,
          Nat.min_eq_left (by omega)] at hblames
      · exact absurd hroom' (by have := htake (k + 2); omega)
    · intro us err
      -- An error of the parser itself comes out whatever follows the tokens.
      rcases ofTokens_prefix room N (ts.take (k + 2)) e us err with hscan | ⟨pos, hexhausted⟩ | hsame
      · exact absurd hscan hm
      · rcases blames_of_ofTokens hexhausted with hr | hr | ⟨-, hroom'⟩
        · cases hr
        · exact hr.elim
        · exact absurd hroom' (by have := htake (k + 2); omega)
      · exact hsame.trans hr

/-- Where a lexical error cuts a source short, the parser never succeeds. What comes out is that error, or
one of the parser itself, which blames an earlier token than the last one and comes out whatever follows. -/
theorem ofTokens_arbitrates {source : String} {ts : List Token} {e : ScanError}
    (h : TokenStream.ofSource source = ⟨ts, some e⟩) (room : Nat) (N : Int) :
    (∀ t ∈ ts, t.kind ≠ .endOfInput) ∧
      ∃ r, ofTokens room N (.ofSource source) = .error r ∧
        (ts.length ≤ 1 → r = .scan e) ∧
        (r = .scan e ∨
          (r.Blames N ts.dropLast ∧ ∀ us err, ofTokens room N ⟨ts ++ us, err⟩ = .error r) ∨
          (∃ pos, r = .exhausted pos) ∧ room < 5 * ts.length + 5) ∧
        (5 * ts.length + 5 ≤ room → r = .scan e ∨ ∃ k, k + 2 ≤ ts.length ∧ EndsAt room N ts k r) := by
  have hts : ∀ t ∈ ts, t.kind ≠ .endOfInput := by
    obtain ⟨vs, hvs, ⟨_, hstream⟩ | ⟨_, _, hstream⟩⟩ := TokenStream.ofSource_closed source
    · rw [h] at hstream
      obtain rfl := congrArg TokenStream.tokens hstream
      exact hvs
    · rw [h] at hstream
      cases congrArg TokenStream.error hstream
  refine ⟨hts, ?_⟩
  rw [h]
  cases hr : ofTokens room N ⟨ts, some e⟩ with
  | ok p => exact absurd hr (ofTokens_cut hts e)
  | error r =>
    refine ⟨r, rfl, fun hshort => ?_, ?_, fun hroom => ?_⟩
    · rw [ofTokens_short hshort] at hr
      exact (Except.error.inj hr).symm
    · rcases blames_of_ofTokens hr with hscan | hblames | hexhausted
      · exact .inl hscan
      · refine .inr (.inl ⟨hblames, fun us err => ?_⟩)
        rcases ofTokens_prefix room N ts e us err with hscan | ⟨pos, hexhausted⟩ | hsame
        · obtain rfl := Except.error.inj (hr.symm.trans hscan)
          exact hblames.elim
        · obtain rfl := Except.error.inj (hr.symm.trans hexhausted)
          exact hblames.elim
        · exact hsame.trans hr
      · exact .inr (.inr hexhausted)
    · by_cases hscan : r = .scan e
      · exact .inl hscan
      · obtain ⟨k, r', hk, hends⟩ := exists_endsAt (N := N) (e := e) hroom hts
          fun h => hscan (Except.error.inj (hr.symm.trans h))
        have hsame := hends.ends (ts.drop (k + 2)) (some e)
        rw [List.take_append_drop, hr] at hsame
        exact .inr ⟨k, hk, Except.error.inj hsame ▸ hends⟩

theorem ofTokens_arbitrates_parenthesis :
    let ts : List Token := [⟨.symbol .rightParen, ")", ⟨1, 1⟩, 0, none⟩,
      ⟨.symbol .rightParen, ")", ⟨1, 2⟩, 1, none⟩]
    TokenStream.ofSource "))~" = ⟨ts, some (.fault (.unexpected '~') ⟨1, 3⟩)⟩ ∧
      ∃ r k, ofTokens 15 128 (.ofSource "))~") = .error r ∧ k + 2 ≤ ts.length ∧
        EndsAt 15 128 ts k r := by
  intro ts
  have hsource : TokenStream.ofSource "))~" = ⟨ts, some (.fault (.unexpected '~') ⟨1, 3⟩)⟩ := by
    unfold TokenStream.ofSource Scanner.ofSource
    iterate 2 rw [Scanner.stream_step rfl rfl]
    rw [Scanner.stream_of_unfinished rfl]
    rfl
  refine ⟨hsource, ?_⟩
  obtain ⟨-, r, hr, -, -, hends⟩ := ofTokens_arbitrates hsource 15 128
  rcases hends (by decide) with rfl | ⟨k, hk, hends⟩
  · rw [hsource] at hr
    cases hr
  · exact ⟨r, k, hr, hk, hends⟩

end Program

end Scriptlet
