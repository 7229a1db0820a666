import Mathlib.Data.List.TakeWhile
import Scriptlet.Proofs.LexemeText

namespace Scriptlet

namespace Lexeme

theorem not_of_isSpace (p : Char → Bool) {b : Char} (hb : isSpace b)
    (hp : [' ', '\t', '\n', '\r'].any p = false) : p b = false := by
  simp only [isSpace, Bool.or_eq_true, decide_eq_true_eq] at hb
  exact Bool.eq_false_iff.mpr (List.any_eq_false.mp hp b (by simpa [or_assoc] using hb))

theorem ne_of_isSpace {b c : Char} (hb : isSpace b) (hc : isSpace c = false) : b ≠ c := by
  rintro rfl
  rw [hb] at hc
  cases hc

section

variable {p : Char → Bool} {b : Char} (hp : p b = false) (cs ds : List Char)

include hp

theorem takeWhile_behind : (cs ++ b :: ds).takeWhile p = cs.takeWhile p := by
  induction cs with
  | nil => simp [hp]
  | cons c cs ih => simp only [List.cons_append, List.takeWhile_cons, ih]

theorem dropWhile_behind : (cs ++ b :: ds).dropWhile p = cs.dropWhile p ++ b :: ds := by
  induction cs with
  | nil => simp [hp]
  | cons c cs ih =>
    simp only [List.cons_append, List.dropWhile_cons, ih]
    split <;> rfl

end

section

variable {kind : TokenKind} {t : List Char} {v : Option Literal}

theorem ne_backslash {c : Char} {rest : List Char} (hlast : c = '\\' → rest = [] → False)
    (hescape : ∀ d more, c = '\\' → rest = d :: more → False) : c ≠ '\\' := by
  rintro rfl
  cases rest with
  | nil => exact hlast rfl rfl
  | cons d rest => exact hescape d rest rfl rfl

theorem string_behind {text value cs : List Char} (h : string text value cs = .token kind t v)
    (ds : List Char) : string text value (cs ++ ds) = .token kind t v := by
  fun_induction string text value cs with
  | case1 | case3 | case5 => simp at h
  | case2 => simpa [string] using h
  | case4 text value c rest w hw ih => simpa [string, hw] using ih h
  | case6 text value c rest hquote hlast hescape ih =>
    have hslash : c ≠ '\\' := ne_backslash hlast hescape
    simpa [string, hquote, hslash] using ih h

section

variable {b : Char} (hb : isSpace b)

include hb

theorem hex_blank {intro rest : List Char} (h : hex intro rest = .token kind t v)
    (ds : List Char) : hex intro (rest ++ b :: ds) = .token kind t v := by
  have hdigit : isHexDigit b = false := not_of_isSpace isHexDigit hb (by decide)
  rw [← h]
  unfold hex
  simp only [takeWhile_behind hdigit]
  split
  · rename_i hempty
    simp [hex, hempty] at h
  · rfl

theorem fraction_blank (cs ds : List Char) : fraction (cs ++ b :: ds) = fraction cs := by
  have hpoint : b ≠ '.' := ne_of_isSpace hb (by decide)
  have hdigit : b.isDigit = false := not_of_isSpace Char.isDigit hb (by decide)
  cases cs with
  | nil => simp [fraction, hpoint]
  | cons c cs =>
    by_cases hc : c = '.'
    · subst hc
      exact takeWhile_behind hdigit cs ds
    · simp [fraction, hc]

theorem decimal_blank (cs ds : List Char) : decimal (cs ++ b :: ds) = decimal cs := by
  have hdigit : b.isDigit = false := not_of_isSpace Char.isDigit hb (by decide)
  unfold decimal
  rw [takeWhile_behind hdigit, dropWhile_behind hdigit, fraction_blank hb]

theorem number_blank {cs : List Char} (h : number cs = .token kind t v) (ds : List Char) :
    number (cs ++ b :: ds) = .token kind t v := by
  unfold number at h
  split at h
  · exact hex_blank hb h ds
  · exact hex_blank hb h ds
  · rename_i hx hX
    have hfront {x : Char} (hne : b ≠ x) {rest : List Char} (h : cs ++ b :: ds = '0' :: x :: rest) :
        ∃ rest, cs = '0' :: x :: rest := by
      have hzero : b ≠ '0' := ne_of_isSpace hb (by decide)
      match cs, h with
      | [], h => simp [hzero] at h
      | [c], h => simp [hne] at h
      | c :: d :: cs, h =>
        simp only [List.cons_append, List.cons.injEq] at h
        exact ⟨cs, by rw [h.1, h.2.1]⟩
    rw [← h, ← decimal_blank hb cs ds]
    unfold number
    split
    · obtain ⟨rest, hcs⟩ := hfront (x := 'x') (ne_of_isSpace hb (by decide)) ‹_›
      exact (hx rest hcs).elim
    · obtain ⟨rest, hcs⟩ := hfront (x := 'X') (ne_of_isSpace hb (by decide)) ‹_›
      exact (hX rest hcs).elim
    · rfl

theorem ofChars?_blank (c : Char) : Symbol.ofChars? [c, b] = none := by
  refine List.find?_eq_none.mpr fun s _ => ?_
  have hequal : b ≠ '=' := ne_of_isSpace hb (by decide)
  cases s <;> simp [Symbol.chars, hequal.symm]

theorem symbol_blank (c : Char) (rest ds : List Char) :
    symbol c (rest ++ b :: ds) = symbol c rest := by
  cases rest with
  | cons d rest => rfl
  | nil =>
    unfold symbol
    simp only [List.nil_append, List.take_succ_cons, List.take_zero, List.take_nil, ofChars?_blank hb]
    cases Symbol.ofChars? [c] <;> rfl

theorem read_blank {c : Char} {rest : List Char} (h : read c rest = .token kind t v)
    (ds : List Char) : read c (rest ++ b :: ds) = .token kind t v := by
  unfold read at h ⊢
  split at h
  · rw [if_pos ‹_›]
    exact string_behind h (b :: ds)
  · rw [if_neg ‹_›]
    split at h
    · rw [if_pos ‹_›, ← List.cons_append]
      exact number_blank hb h ds
    · rw [if_neg ‹_›]
      split at h
      · rw [if_pos ‹_›, ← h, ← List.cons_append]
        unfold word
        rw [takeWhile_behind (not_of_isSpace isWordPart hb (by decide))]
      · rw [if_neg ‹_›, symbol_blank hb, h]

end

theorem string_alone {text value cs : List Char} (h : string text value cs = .token kind t v) :
    ∃ more, t = text.reverse ++ more ∧ string text value more = .token kind t v := by
  fun_induction string text value cs with
  | case1 | case3 | case5 => simp at h
  | case2 text value cs =>
    simp only [token.injEq] at h
    obtain ⟨rfl, rfl, rfl⟩ := h
    exact ⟨['"'], by simp, rfl⟩
  | case4 text value c rest w hw ih =>
    obtain ⟨more, ht, hmore⟩ := ih h
    exact ⟨'\\' :: c :: more, by simpa using ht, by simpa [string, hw] using hmore⟩
  | case6 text value c rest hquote hlast hescape ih =>
    obtain ⟨more, ht, hmore⟩ := ih h
    have hslash : c ≠ '\\' := ne_backslash hlast hescape
    exact ⟨c :: more, by simpa using ht, by simpa [string, hquote, hslash] using hmore⟩

theorem hex_alone {intro rest : List Char} (h : hex intro rest = .token kind t v) :
    ∃ digits, t = intro ++ digits ∧ hex intro digits = .token kind t v := by
  refine ⟨rest.takeWhile isHexDigit, ?_, ?_⟩
  · simp only [hex] at h
    split at h
    · cases h
    · split at h
      · simp only [token.injEq] at h
        exact h.2.1.symm
      · cases h
  · rw [← h]
    simp only [hex, List.takeWhile_idem]
    split
    · rename_i hempty
      simp [hex, hempty] at h
    · rfl

theorem decimal_alone {cs : List Char} (h : decimal cs = .token kind t v) :
    decimal t = .token kind t v := by
  have hpoint : Char.isDigit '.' = false := by decide
  obtain ⟨digits, hdigits⟩ : ∃ digits, digits = fraction (cs.dropWhile Char.isDigit) := ⟨_, rfl⟩
  have hwhole : ∀ c ∈ cs.takeWhile Char.isDigit, c.isDigit = true :=
    List.all_eq_true.mp List.all_takeWhile
  have hall : digits.takeWhile Char.isDigit = digits := by
    rw [hdigits]
    unfold fraction
    split
    · exact List.takeWhile_idem
    · rfl
  simp only [decimal, ← hdigits, token.injEq] at h
  obtain ⟨rfl, rfl, rfl⟩ := h
  generalize cs.takeWhile Char.isDigit = whole at hwhole
  cases digits with
  | nil =>
    have hnone := List.dropWhile_eq_nil_iff.mpr hwhole
    simp [decimal, List.takeWhile_eq_self_iff.mpr hwhole, hnone, fraction]
  | cons d ds =>
    simp [decimal, List.takeWhile_append_of_pos hwhole, List.dropWhile_append_of_pos hwhole, fraction,
      hpoint, hall]

theorem number_alone {cs : List Char} (h : number cs = .token kind t v) :
    number t = .token kind t v := by
  have hfront := number_front h
  unfold number at h
  split at h
  · obtain ⟨digits, rfl, hdigits⟩ := hex_alone h
    exact hdigits
  · obtain ⟨digits, rfl, hdigits⟩ := hex_alone h
    exact hdigits
  · rename_i hx hX
    obtain ⟨rest, rfl⟩ := hfront
    unfold number
    split
    · exact (hx _ rfl).elim
    · exact (hX _ rfl).elim
    · exact decimal_alone h

theorem symbol_alone {c : Char} {rest : List Char} (h : symbol c rest = .token kind t v) :
    ∃ more, t = c :: more ∧ symbol c more = .token kind t v := by
  unfold symbol at h
  split at h
  · rename_i s hs
    have hchars := ofChars?_chars hs
    simp only [token.injEq] at h
    obtain ⟨rfl, rfl, rfl⟩ := h
    refine ⟨rest.take 1, hchars, ?_⟩
    unfold symbol
    rw [List.take_take, Nat.min_self, hs]
  · split at h
    · rename_i s hs
      have hchars := ofChars?_chars hs
      simp only [token.injEq] at h
      obtain ⟨rfl, rfl, rfl⟩ := h
      exact ⟨[], hchars, by simp [symbol, hs]⟩
    · cases h

theorem read_alone {c : Char} {rest : List Char} (h : read c rest = .token kind t v) :
    ∃ more, t = c :: more ∧ read c more = .token kind t v := by
  obtain ⟨more, rfl⟩ : ∃ more, t = c :: more := by
    obtain ⟨d, more, rfl⟩ := List.exists_cons_of_ne_nil (read_text_ne_nil h)
    exact ⟨more, by rw [(List.cons_prefix_cons.mp (read_front h)).1]⟩
  refine ⟨more, rfl, ?_⟩
  unfold read at h ⊢
  split at h
  · rw [if_pos ‹_›]
    obtain ⟨more', hmore, hread⟩ := string_alone h
    obtain rfl : more = more' := (List.cons.inj hmore).2
    exact hread
  · rw [if_neg ‹_›]
    split at h
    · rw [if_pos ‹_›]
      exact number_alone h
    · rw [if_neg ‹_›]
      split at h
      · rw [if_pos ‹_›, ← h]
        simp only [word, token.injEq] at h
        rw [← h.2.1]
        simp only [word, List.takeWhile_idem]
      · rw [if_neg ‹_›]
        obtain ⟨more', hmore, hread⟩ := symbol_alone h
        obtain rfl : more = more' := (List.cons.inj hmore).2
        exact hread

theorem read_again {c : Char} {rest : List Char} (h : read c rest = .token kind t v) :
    ∃ more, t = c :: more ∧ ∀ ds, (∀ b ∈ ds.head?, isSpace b) →
      read c (more ++ ds) = .token kind t v := by
  obtain ⟨more, ht, hmore⟩ := read_alone h
  refine ⟨more, ht, fun ds hds => ?_⟩
  cases ds with
  | nil => rwa [List.append_nil]
  | cons b ds => exact read_blank (hds b rfl) hmore ds

theorem read_opens {c : Char} {rest : List Char} (h : read c rest = .token kind t v) :
    isSpace c = false ∧ (c = '/' → t = ['/']) := by
  have hother {p : Char → Bool} (hc : p c) (hp : [' ', '\t', '\n', '\r'].any p = false)
      (hslash : p '/' = false) : isSpace c = false ∧ (c = '/' → t = ['/']) := by
    constructor
    · rw [← Bool.not_eq_true]
      intro hblank
      rw [not_of_isSpace p hblank hp] at hc
      cases hc
    · rintro rfl
      rw [hslash] at hc
      cases hc
  unfold read at h
  split at h
  · rename_i hc
    exact hother (p := (· = '"')) (by simpa using hc) (by decide) (by decide)
  · split at h
    · exact hother ‹_› (by decide) (by decide)
    · split at h
      · exact hother ‹_› (by decide) (by decide)
      · obtain ⟨hfront, s, -, rfl⟩ := symbol_front h
        cases s <;> obtain ⟨rfl, -⟩ := List.cons_prefix_cons.mp hfront <;> decide

end

end Lexeme

end Scriptlet
