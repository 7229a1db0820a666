import Scriptlet.Scan
import Scriptlet.Proofs.LexemeText

/-!
Scanning that goes on behind errors. Every call passes some of the source, or all answers are the same from
then on: a scanner that has given out the end of the input gives nothing more, and a character that begins
no lexeme is never passed.
-/

namespace Scriptlet

def ScanError.IsUnexpected (e : ScanError) : Prop :=
  ∃ c pos, e = .fault (.unexpected c) pos

namespace Lexeme

theorem splitGap_again (inComment : Bool) (passed cs : List Char) :
    splitGap false [] (splitGap inComment passed cs).2 = ([], (splitGap inComment passed cs).2) := by
  fun_induction splitGap inComment passed cs with
  | case1 => rfl
  | case2 _ _ _ ih => exact ih
  | case3 _ _ _ _ _ _ ih => exact ih
  | case4 _ _ _ _ _ _ _ ih => exact ih
  | case5 inComment passed c rest _ hspace hcomment => simp [splitGap, hspace, hcomment]

def Passes (cs : List Char) : Lexeme → Prop
  | .token _ text _ | .overflow text => text ≠ [] ∧ text <+: cs
  | .fault (.unexpected _) text _ => text = []
  | .fault _ text _ => text ≠ [] ∧ text <+: cs

theorem string_passes {text : List Char} (htext : text ≠ []) (value cs : List Char) :
    Passes (text.reverse ++ cs) (string text value cs) := by
  fun_induction string text value cs with
  | case1 text value => exact ⟨by simpa using htext, List.prefix_append _ _⟩
  | case2 text value rest => exact ⟨by simp, rest, by simp⟩
  | case3 text value => exact ⟨by simp, [], by simp⟩
  | case4 text value c rest v hv ih => simpa using ih (by simp)
  | case5 text value c rest hc => exact ⟨by simp, c :: rest, by simp⟩
  | case6 text value c rest _ _ _ ih => simpa using ih (by simp)

theorem hex_passes {intro : List Char} (hintro : intro ≠ []) (rest : List Char) :
    Passes (intro ++ rest) (hex intro rest) := by
  have hfront : intro ++ rest.takeWhile isHexDigit <+: intro ++ rest :=
    (List.prefix_append_right_inj intro).mpr (List.takeWhile_prefix _)
  simp only [hex]
  split
  · exact ⟨hintro, List.prefix_append _ _⟩
  · split
    · exact ⟨by simp [hintro], hfront⟩
    · exact ⟨by simp [hintro], hfront⟩

theorem number_passes {c : Char} (hc : c.isDigit) (rest : List Char) :
    Passes (c :: rest) (number (c :: rest)) := by
  generalize hcs : c :: rest = cs
  unfold number
  split
  · exact hex_passes (List.cons_ne_nil _ _) _
  · exact hex_passes (List.cons_ne_nil _ _) _
  · subst hcs
    exact ⟨decimal_text_ne_nil hc rfl, decimal_front rfl⟩

theorem symbol_passes (c : Char) (rest : List Char) : Passes (c :: rest) (symbol c rest) := by
  unfold symbol
  split
  · rename_i s hs
    refine ⟨chars_ne_nil s, ?_⟩
    rw [ofChars?_chars hs]
    exact (List.prefix_cons_inj c).mpr (List.take_prefix 1 rest)
  · split
    · rename_i s hs
      refine ⟨chars_ne_nil s, ?_⟩
      rw [ofChars?_chars hs]
      exact (List.prefix_cons_inj c).mpr List.nil_prefix
    · rfl

theorem read_passes (c : Char) (rest : List Char) : Passes (c :: rest) (read c rest) := by
  unfold read
  split
  · rename_i hc
    exact hc ▸ string_passes (List.cons_ne_nil '"' []) [] rest
  · split
    · rename_i hdigit
      exact number_passes hdigit rest
    · split
      · rename_i hletter
        exact ⟨takeWhile_ne_nil (by simp [isWordPart, hletter]), List.takeWhile_prefix _⟩
      · exact symbol_passes c rest

end Lexeme

namespace Scanner

def call (s : Scanner) : Option (Except ScanError Token) × Scanner :=
  match s.next with
  | none => (none, s)
  | some (answer, s') => (some answer, s')

def after (s : Scanner) : Nat → Scanner
  | 0 => s
  | k + 1 => s.call.2.after k

def answer (s : Scanner) (k : Nat) : Option (Except ScanError Token) :=
  (s.after k).call.1

def Advances (s s' : Scanner) : Prop :=
  ∃ text, text ≠ [] ∧ s.rest = text ++ s'.rest ∧ s'.offset = s.offset + text.length

theorem Advances.length_lt {s s' : Scanner} (h : s.Advances s') : s'.rest.length < s.rest.length := by
  obtain ⟨text, hne, hrest, -⟩ := h
  have hlength := List.length_pos_iff.mpr hne
  rw [hrest, List.length_append]
  omega

inductive Answers (s : Scanner) : Option (Except ScanError Token) → Scanner → Prop
  | stopped (hs : s.finished = true) : Answers s none s
  | finish {t : Token} {s' : Scanner} (ht : t.kind = .endOfInput) (hs : s'.finished = true) :
      Answers s (some (.ok t)) s'
  | token {t : Token} {s' : Scanner} (ht : t.kind ≠ .endOfInput) (h : s.Advances s') :
      Answers s (some (.ok t)) s'
  | error {e : ScanError} {s' : Scanner} (he : ¬e.IsUnexpected) (h : s.Advances s') :
      Answers s (some (.error e)) s'
  | stuck {e : ScanError} {s' : Scanner} (he : e.IsUnexpected) (h : s'.call = (some (.error e), s')) :
      Answers s (some (.error e)) s'

section

variable {s s' : Scanner} {x : Option (Except ScanError Token)}

theorem passGap_again (s : Scanner) : s.passGap.passGap = s.passGap := by
  have h := Lexeme.splitGap_again false [] s.rest
  unfold passGap at h ⊢
  simp only [h]
  rfl

theorem advances_pass {text : List Char} (hne : text ≠ []) (h : text <+: s.passGap.rest) :
    s.Advances (s.passGap.pass text) := by
  obtain ⟨rest, hrest⟩ := h
  have happend := Lexeme.splitGap_append false [] s.rest
  rw [List.reverse_nil, List.nil_append] at happend
  refine ⟨(Lexeme.splitGap false [] s.rest).1 ++ text, by simp [hne], ?_, ?_⟩
  · rw [pass, ← hrest, List.drop_left, List.append_assoc, hrest]
    exact happend.symm
  · rw [List.length_append, ← Nat.add_assoc]
    rfl

theorem call_of_unfinished (hs : s.finished = false) :
    s.call = (some s.passGap.step.1, s.passGap.step.2) := by
  simp [call, next, hs]

theorem step_answers (hs : s.finished = false) :
    s.Answers (some s.passGap.step.1) s.passGap.step.2 := by
  have hagain : s.passGap.call = (some s.passGap.step.1, s.passGap.step.2) := by
    rw [call_of_unfinished (s := s.passGap) hs, passGap_again]
  unfold step at hagain ⊢
  split
  · exact .finish rfl rfl
  · rename_i c rest hrest
    have hpasses := Lexeme.read_passes c rest
    rw [← hrest] at hpasses
    split <;> rename_i hread <;> rw [hread] at hpasses
    · exact .token (Lexeme.read_spelling hread).1 (advances_pass hpasses.1 hpasses.2)
    · rename_i f text before
      cases f with
      | unexpected d =>
        -- nothing is passed, so the next call stands where this one stood
        obtain rfl : text = [] := hpasses
        simp only [hrest, hread] at hagain
        exact .stuck ⟨d, _, rfl⟩ hagain
      | unterminatedString | invalidEscape | malformedHex =>
        refine .error ?_ (advances_pass hpasses.1 hpasses.2)
        rintro ⟨d, pos, he⟩
        cases he
    · refine .error ?_ (advances_pass hpasses.1 hpasses.2)
      rintro ⟨d, pos, he⟩
      cases he

theorem call_answers (s : Scanner) : s.Answers s.call.1 s.call.2 := by
  by_cases hs : s.finished = true
  · have hcall : s.call = (none, s) := by simp [call, next, hs]
    rw [hcall]
    exact .stopped hs
  · rw [call_of_unfinished (by simpa using hs)]
    exact step_answers (by simpa using hs)

theorem after_of_call (k : Nat) (hcall : s.call = (x, s)) : s.after k = s := by
  induction k with
  | zero => rfl
  | succ k ih => rw [after, hcall, ih]

theorem answer_of_call (k : Nat) (hcall : s.call = (x, s)) : s.answer k = x := by
  rw [answer, after_of_call k hcall, hcall]

theorem call_of_finished (hs : s.finished = true) : s.call = (none, s) := by
  simp [call, next, hs]

theorem after_add (s : Scanner) (k m : Nat) : s.after (k + m) = (s.after k).after m := by
  induction k generalizing s with
  | zero => rw [Nat.zero_add, after]
  | succ k ih => rw [Nat.add_right_comm, after, ih, after]

theorem answer_add (s : Scanner) (k m : Nat) : s.answer (k + m) = (s.after k).answer m := by
  rw [answer, after_add, answer]

theorem answers_after (s : Scanner) (k : Nat) : (s.after k).Answers (s.answer k) (s.after (k + 1)) := by
  rw [after_add]
  exact call_answers (s.after k)

def Settled (s : Scanner) (x : Option (Except ScanError Token)) : Prop :=
  (x = none ∨ ∃ e, e.IsUnexpected ∧ x = some (.error e)) ∧ ∀ k, s.answer k = x

theorem settled_of_finished (k : Nat) (hs : s.finished = true) : (s.after k).Settled none := by
  have hcall := call_of_finished hs
  rw [after_of_call k hcall]
  exact ⟨.inl rfl, fun m => answer_of_call m hcall⟩

theorem settled_of_stuck {e : ScanError} (k : Nat) (he : e.IsUnexpected)
    (hcall : s.call = (some (.error e), s)) : (s.after k).Settled (some (.error e)) := by
  rw [after_of_call k hcall]
  exact ⟨.inr ⟨e, he, rfl⟩, fun m => answer_of_call m hcall⟩

theorem settled_after {n : Nat} (h : s.rest.length < n) : ∃ x, (s.after n).Settled x := by
  induction n generalizing s with
  | zero => exact absurd h (Nat.not_lt_zero _)
  | succ n ih =>
    have hanswers := s.answers_after 0
    have hadvances : s.Advances s.call.2 → ∃ x, (s.call.2.after n).Settled x := fun hs =>
      ih (Nat.lt_of_lt_of_le hs.length_lt (Nat.le_of_lt_succ h))
    generalize s.answer 0 = x, hs' : s.after (0 + 1) = s' at hanswers
    replace hs' : s.call.2 = s' := hs'
    rw [after, hs']
    rw [hs'] at hadvances
    cases hanswers with
    | stopped hs => exact ⟨none, settled_of_finished n hs⟩
    | finish _ hs => exact ⟨none, settled_of_finished n hs⟩
    | token _ hs => exact hadvances hs
    | error _ hs => exact hadvances hs
    | stuck he hcall => exact ⟨_, settled_of_stuck n he hcall⟩

end

section

variable (s : Scanner) (k : Nat)

theorem advances_of_token {t : Token} (ht : t.kind ≠ .endOfInput) (h : s.answer k = some (.ok t)) :
    (s.after k).Advances (s.after (k + 1)) := by
  have hanswers := s.answers_after k
  rw [h] at hanswers
  cases hanswers with
  | finish hend _ => exact absurd hend ht
  | token _ hs => exact hs

theorem advances_of_error {e : ScanError} (he : ¬e.IsUnexpected) (h : s.answer k = some (.error e)) :
    (s.after k).Advances (s.after (k + 1)) := by
  have hanswers := s.answers_after k
  rw [h] at hanswers
  cases hanswers with
  | error _ hs => exact hs
  | stuck hunexpected _ => exact absurd hunexpected he

theorem answer_of_unexpected {e : ScanError} (he : e.IsUnexpected)
    (h : s.answer k = some (.error e)) (m : Nat) : s.answer (k + 1 + m) = some (.error e) := by
  have hanswers := s.answers_after k
  rw [h] at hanswers
  cases hanswers with
  | error hexpected _ => exact absurd he hexpected
  | stuck _ hcall => rw [answer_add, answer_of_call m hcall]

theorem answer_of_endOfInput {t : Token} (ht : t.kind = .endOfInput)
    (h : s.answer k = some (.ok t)) (m : Nat) : s.answer (k + 1 + m) = none := by
  have hanswers := s.answers_after k
  rw [h] at hanswers
  cases hanswers with
  | finish _ hs => rw [answer_add, answer_of_call m (call_of_finished hs)]
  | token hother _ => exact absurd ht hother

theorem answer_of_none (h : s.answer k = none) (m : Nat) : s.answer (k + 1 + m) = none := by
  have hanswers := s.answers_after k
  rw [h] at hanswers
  generalize hs' : s.after (k + 1) = s' at hanswers
  cases hanswers with
  | stopped hs => rw [answer_add, hs', answer_of_call m (call_of_finished hs)]

end

/-- A token or an error passes some of the source, but for an unexpected character, which every later call
complains of in the same place, and the end of the input, behind which nothing is given. So the answers
behind the first `source.length + 1` are all the same. -/
theorem answers_settle (source : String) :
    (∀ k t, (ofSource source).answer k = some (.ok t) → t.kind ≠ .endOfInput →
        ((ofSource source).after k).Advances ((ofSource source).after (k + 1))) ∧
      (∀ k e, (ofSource source).answer k = some (.error e) → ¬e.IsUnexpected →
        ((ofSource source).after k).Advances ((ofSource source).after (k + 1))) ∧
      (∀ k e, (ofSource source).answer k = some (.error e) → e.IsUnexpected →
        ∀ m, (ofSource source).answer (k + 1 + m) = some (.error e)) ∧
      (∀ k t, (ofSource source).answer k = some (.ok t) → t.kind = .endOfInput →
        ∀ m, (ofSource source).answer (k + 1 + m) = none) ∧
      (∀ k, (ofSource source).answer k = none → ∀ m, (ofSource source).answer (k + 1 + m) = none) ∧
      ∃ x, (x = none ∨ ∃ e, e.IsUnexpected ∧ x = some (.error e)) ∧
        ∀ k, (ofSource source).answer (source.length + 1 + k) = x := by
  refine ⟨fun k t h ht => advances_of_token _ k ht h, fun k e h he => advances_of_error _ k he h,
    fun k e h he => answer_of_unexpected _ k he h, fun k t h ht => answer_of_endOfInput _ k ht h,
    fun k h => answer_of_none _ k h, ?_⟩
  have hlength : (ofSource source).rest.length < source.length + 1 := by
    rw [Nat.lt_succ_iff, ← String.length_toList]
    exact Nat.le_refl _
  obtain ⟨x, hkind, hsame⟩ := settled_after hlength
  refine ⟨x, hkind, fun k => ?_⟩
  rw [answer_add, hsame]

theorem answers_settle_badEscape :
    let s := ofSource "\"\\q@"
    s.answer 0 = some (.error (.fault (.invalidEscape 'q') ⟨1, 2⟩)) ∧ s.Advances (s.after 1) ∧
      s.answer 1 = some (.ok ⟨.identifier, "q", ⟨1, 3⟩, 2, none⟩) ∧ (s.after 1).Advances (s.after 2) ∧
      ∀ m, s.answer (2 + m) = some (.error (.fault (.unexpected '@') ⟨1, 4⟩)) := by
  intro s
  obtain ⟨htoken, herror, hunexpected, -⟩ := answers_settle "\"\\q@"
  have hescape : s.answer 0 = some (.error (.fault (.invalidEscape 'q') ⟨1, 2⟩)) := by rfl
  have hq : s.answer 1 = some (.ok ⟨.identifier, "q", ⟨1, 3⟩, 2, none⟩) := by rfl
  have hat : s.answer 2 = some (.error (.fault (.unexpected '@') ⟨1, 4⟩)) := by rfl
  refine ⟨hescape, herror 0 _ hescape (fun ⟨_, _, he⟩ => by cases he), hq,
    htoken 1 _ hq (by decide), fun m => ?_⟩
  cases m with
  | zero => exact hat
  | succ m =>
    rw [← Nat.add_assoc, Nat.add_right_comm]
    exact hunexpected 2 _ hat ⟨_, _, rfl⟩ m

end Scanner

end Scriptlet
