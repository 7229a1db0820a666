import Mathlib.Data.Nat.Find
import Scriptlet.Proofs.ParallelGrammar

namespace Scriptlet

open Scriptlet.Parser

def streamReading (same : ParseError → ParseError → Prop) (lost : ParseError → Prop)
    (hsame : ∀ e, (∀ limit pos, e ≠ .nesting limit pos) → same e e) : Reading where
  pairing := .identity
  token := Eq
  near := Eq
  apart _ _ := False
  same := same
  lost := lost
  token_corresponds := Token.corresponds_of_eq
  near_current h := congrArg _ h
  near_next h _ := h ▸ Iff.rfl
  near_advance := by
    rintro c _ rfl _
    cases c.advance with
    | ok d => exact .inl ⟨d, d, rfl, rfl, .inl rfl⟩
    | error e => exact .inr ⟨e, rfl, .inr ⟨e, rfl, hsame _ nofun⟩⟩
  apart_ended := Ended.of_false
  same_fault hf hp := hf.fault_eq hp ▸ hsame _ nofun
  same_exhausted hp := ParseError.exhausted_eq hp ▸ hsame _ nofun

def limitReading (limit : Int) : Reading :=
  streamReading Eq (fun e => ∃ pos, e = .nesting limit pos) fun _ _ => rfl

theorem around_limits {N M : Int} (h : ∀ k : Nat, M ≤ k → N ≤ k) (length : Nat) :
    (limitReading N).Around ⟨N, 0, false, length⟩ ⟨M, 0, false, length⟩ where
  nesting := rfl
  inFunction := rfl
  length := .inl rfl
  limit := h
  deep _ := .inl ⟨_, rfl⟩

namespace Cursor

def ahead (c : Cursor) : List Token :=
  (c.current :: c.next :: c.rest).takeWhile (·.kind ≠ .endOfInput)

theorem kind_endBehind (t : Token) : t.endBehind.kind = .endOfInput := by
  unfold Token.endBehind
  split
  · assumption
  · rfl

theorem takeWhile_pull {t u : Token} {ts us : List Token} {error : Option ScanError}
    (h : pull (some t) ts error = .ok (u, us)) :
    (t :: u :: us).takeWhile (·.kind ≠ .endOfInput) =
      (t :: ts).takeWhile (·.kind ≠ .endOfInput) := by
  cases ts with
  | cons v vs =>
    obtain ⟨rfl, rfl⟩ := Prod.mk.inj (Except.ok.inj h)
    rfl
  | nil =>
    cases error with
    | some e => cases h
    | none =>
      obtain ⟨rfl, rfl⟩ := Prod.mk.inj (Except.ok.inj h)
      simp [List.takeWhile_cons, kind_endBehind]

theorem ahead_advance {c d : Cursor} (h : c.advance = .ok d) :
    d.ahead = (c.next :: c.rest).takeWhile (·.kind ≠ .endOfInput) := by
  unfold advance at h
  cases hp : pull (some c.next) c.rest c.error with
  | error e => simp [hp, bind, Except.bind] at h
  | ok r =>
    simp only [hp, bind, Except.bind, pure, Except.pure, Except.ok.injEq] at h
    rw [← h]
    exact takeWhile_pull hp

theorem ahead_cons {c d : Cursor} (h : c.advance = .ok d) (hc : c.current.kind ≠ .endOfInput) :
    c.ahead = c.current :: d.ahead := by
  rw [ahead_advance h, ahead, List.takeWhile_cons, if_pos (by simpa using hc)]

theorem Passes.ahead {c d : Cursor} {us : List Token} (h : c.Passes us d) : us <+: c.ahead := by
  induction us generalizing c with
  | nil => exact List.nil_prefix
  | cons u us ih =>
    obtain ⟨rfl, hu, c', hc, hrest⟩ := h
    rw [ahead_cons hc hu]
    exact List.cons_prefix_cons.mpr ⟨rfl, ih hrest⟩

theorem Faces.ahead {c : Cursor} {ts : List Token} {e : Token} (h : c.Faces ts e)
    (hts : ∀ t ∈ ts, t.kind ≠ .endOfInput) (he : e.kind = .endOfInput) : c.ahead = ts := by
  induction ts generalizing c with
  | nil =>
    rw [Cursor.ahead, h.current_nil, List.takeWhile_cons, if_neg (by simpa using he)]
  | cons t ts ih =>
    obtain ⟨ht, htail⟩ := List.forall_mem_cons.mp hts
    obtain ⟨rfl, d, hd, hfaces⟩ := h.advance
    rw [ahead_cons hd ht, ih hfaces htail]

theorem ahead_ofStream {s : TokenStream} {c : Cursor} (h : ofStream s = .ok c) :
    c.ahead = s.tokens.takeWhile (·.kind ≠ .endOfInput) := by
  obtain ⟨ts, error⟩ := s
  cases ts with
  | nil =>
    cases error with
    | some e => cases h
    | none =>
      obtain rfl := Except.ok.inj h
      rfl
  | cons t ts =>
    change Except.bind (pull (some t) ts error) _ = .ok c at h
    cases hp : pull (some t) ts error with
    | error e =>
      rw [hp] at h
      cases h
    | ok r =>
      rw [hp] at h
      obtain rfl := Except.ok.inj h
      exact takeWhile_pull hp

end Cursor

namespace Program

variable {room : Nat} {s : TokenStream} {N M : Int}

theorem reason_of_ofTokens {e : ParseError} (h : ofTokens room N s = .error e) :
    (∃ err, e = .scan err) ∨ ∃ us d,
      us.length ≤ (s.tokens.takeWhile (·.kind ≠ .endOfInput)).length ∧
        Reason N ⟨2, room - 5, (s.tokens.length + 1 : Nat), []⟩ us d e := by
  rcases exists_reason_of_ofTokens h with ⟨err, -, rfl⟩ | ⟨c, us, d, hc, hpasses, hreason⟩
  · exact .inl ⟨err, rfl⟩
  · refine .inr ⟨us, d, ?_, hreason⟩
    rw [← Cursor.ahead_ofStream hc]
    exact hpasses.ahead.length_le

theorem ofTokens_limits (room : Nat) (s : TokenStream) (h : ∀ k : Nat, M ≤ k → N ≤ k) :
    (∃ pos, ofTokens room N s = .error (.nesting N pos)) ∨
      ofTokens room N s = ofTokens room M s := by
  cases hc : Cursor.ofStream s with
  | error e =>
    right
    unfold ofTokens
    rw [hc]
    rfl
  | ok c =>
    have hnear : (limitReading N).near c c := rfl
    have hloops := (limitReading N).loops_declarations room (around_limits h (s.tokens.length + 1)) hnear
    have hbeside := hloops.beside fun _ _ => id
    rw [ofTokens_eq hc, ofTokens_eq hc]
    generalize declarations room N (s.tokens.length + 1) c = x at hbeside ⊢
    generalize declarations room M (s.tokens.length + 1) c = x' at hbeside ⊢
    cases hbeside with
    | same h => exact .inr (congrArg _ (congrArg _ h))
    | lost h =>
      obtain ⟨pos, rfl⟩ := h
      exact .inl ⟨pos, rfl⟩
    | result hns hd =>
      right
      rw [Node.likes_eq Pairing.exact_identity hns]
      rfl

theorem limit_of_nesting {limit : Int} {pos : Position}
    (h : ofTokens room N s = .error (.nesting limit pos)) :
    limit = N ∧ N < 2 * (s.tokens.takeWhile (·.kind ≠ .endOfInput)).length + 2 := by
  rcases reason_of_ofTokens h with ⟨err, herr⟩ | ⟨us, d, hlength, hlimit, -, hdeep⟩
  · cases herr
  · simp only at hdeep
    exact ⟨hlimit, by omega⟩

def NestsBeyond (room : Nat) (s : TokenStream) (N : Int) : Prop :=
  ∃ e pos, ofTokens room N s = .error e ∧
    e.failure = .diagnosed (.placed .resource s!"Maximum nesting depth of {N} exceeded." pos)

theorem nestsBeyond_of_nesting {limit : Int} {pos : Position}
    (h : ofTokens room N s = .error (.nesting limit pos)) : NestsBeyond room s N := by
  obtain ⟨rfl, -⟩ := limit_of_nesting h
  exact ⟨_, pos, h, rfl⟩

/-- The limit on nesting is a threshold. Either it never makes a difference, or there is a least limit that
a source needs: every lower one ends the parser with an error that names it, and from there on all limits
give the same tree or the same error. -/
theorem ofTokens_threshold (room : Nat) (s : TokenStream) :
    let n := (s.tokens.takeWhile (·.kind ≠ .endOfInput)).length
    (∃ x, (∀ limit pos, x ≠ .error (.nesting limit pos)) ∧
      ((∀ N : Int, ofTokens room N s = x) ∨
        ∃ least : Nat, 1 ≤ least ∧ least ≤ 2 * n + 2 ∧
          (∀ N : Int, N < least → NestsBeyond room s N) ∧
          ∀ N : Int, least ≤ N → ofTokens room N s = x)) ∧
    (5 * n + 5 ≤ room → ∀ N pos, ofTokens room N s ≠ .error (.exhausted pos)) := by
  intro n
  refine ⟨?_, ?_⟩
  · -- The least limit under which nesting does not end the parser.
    have henough : ∃ k : Nat, ∀ limit pos, ofTokens room k s ≠ .error (.nesting limit pos) := by
      refine ⟨2 * n + 2, fun limit pos h => ?_⟩
      have := (limit_of_nesting h).2
      omega
    classical
    let least := Nat.find henough
    have hleast : ∀ limit pos, ofTokens room least s ≠ .error (.nesting limit pos) :=
      Nat.find_spec henough
    have hsame (N : Int) (h : ∀ k : Nat, N ≤ k → (least : Int) ≤ k) :
        ofTokens room N s = ofTokens room least s := by
      rcases ofTokens_limits room s h with ⟨pos, hnesting⟩ | heq
      · exact absurd hnesting (hleast _ pos)
      · exact heq.symm
    refine ⟨ofTokens room least s, hleast, ?_⟩
    by_cases hzero : least = 0
    · refine .inl fun N => hsame N fun k _ => ?_
      omega
    · refine .inr ⟨least, Nat.one_le_iff_ne_zero.mpr hzero, ?_, fun N hN => ?_,
        fun N hN => hsame N fun k hk => by omega⟩
      · apply Nat.find_min'
        intro limit pos h
        have := (limit_of_nesting h).2
        omega
      · have hbelow : ¬∀ limit pos, ofTokens room N.toNat s ≠ .error (.nesting limit pos) :=
          Nat.find_min henough (show N.toNat < least by omega)
        push Not at hbelow
        obtain ⟨limit, pos, hnesting⟩ := hbelow
        rcases ofTokens_limits (N := N) (M := N.toNat) room s fun k hk => by omega with ⟨p, h⟩ | heq
        · exact nestsBeyond_of_nesting h
        · exact nestsBeyond_of_nesting (heq.trans hnesting)
  · intro hroom N pos h
    rcases reason_of_ofTokens h with ⟨err, herr⟩ | ⟨us, d, hlength, -, hused⟩
    · cases herr
    · have htokens := (List.takeWhile_prefix (l := s.tokens) (·.kind ≠ .endOfInput)).length_le
      simp only at hused
      omega

end Program

end Scriptlet
