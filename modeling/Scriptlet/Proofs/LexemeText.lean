import Scriptlet.Lexeme

namespace Scriptlet

inductive Gap (rest : List Char) : (inComment : Bool) → List Char → Prop
  | nil : Gap rest false []
  | blank {c : Char} {cs : List Char} (hc : c = ' ' ∨ c = '\t' ∨ c = '\r' ∨ c = '\n')
      (h : Gap rest false cs) : Gap rest false (c :: cs)
  | slashes {cs : List Char} (h : Gap rest true cs) : Gap rest false ('/' :: '/' :: cs)
  | inside {c : Char} {cs : List Char} (hc : c ≠ '\n') (h : Gap rest true cs) :
      Gap rest true (c :: cs)
  | lineFeed {cs : List Char} (h : Gap rest false cs) : Gap rest true ('\n' :: cs)
  | finish (hrest : rest = []) : Gap rest true []

def TokenKind.spelling? : TokenKind → Option String
  | keyword k => some k.text
  | symbol s => some s.text
  | _ => none

structure Token.Spelled (t : Token) : Prop where
  kind : t.kind ≠ .endOfInput
  text : ∀ s, t.kind.spelling? = some s → t.text = s

namespace Lexeme

theorem splitGap_gap (inComment : Bool) (passed cs : List Char) :
    ∃ gap rest, splitGap inComment passed cs = (passed.reverse ++ gap, rest) ∧ cs = gap ++ rest ∧
      Gap rest inComment gap := by
  fun_induction splitGap inComment passed cs with
  | case1 inComment passed =>
    refine ⟨[], [], by simp, rfl, ?_⟩
    cases inComment
    · exact .nil
    · exact .finish rfl
  | case2 passed c cs ih =>
    obtain ⟨gap, rest, heq, rfl, h⟩ := ih
    refine ⟨c :: gap, rest, by rw [heq]; simp, rfl, ?_⟩
    by_cases hc : c = '\n'
    · subst hc
      exact .lineFeed h
    · rw [decide_eq_true hc] at h
      exact .inside hc h
  | case3 inComment passed c cs hout hc ih =>
    obtain ⟨gap, rest, heq, rfl, h⟩ := ih
    obtain rfl := Bool.eq_false_iff.mpr hout
    refine ⟨c :: gap, rest, by rw [heq]; simp, rfl, .blank ?_ h⟩
    simp only [isSpace, Bool.or_eq_true, decide_eq_true_eq] at hc
    grind
  | case4 inComment passed c cs hout _ hc ih =>
    obtain ⟨gap, rest, heq, rfl, h⟩ := ih
    obtain rfl := Bool.eq_false_iff.mpr hout
    obtain ⟨rfl, hnext⟩ := hc
    refine ⟨'/' :: gap, rest, by rw [heq]; simp, rfl, ?_⟩
    -- The second slash belongs to the comment that the first one opens.
    cases h with
    | finish hrest => simp [hrest] at hnext
    | lineFeed => simp at hnext
    | inside _ h =>
      obtain rfl := by simpa using hnext
      exact .slashes h
  | case5 inComment passed c cs hout =>
    obtain rfl := Bool.eq_false_iff.mpr hout
    exact ⟨[], c :: cs, by simp, rfl, .nil⟩

theorem string_front {text value cs : List Char} {kind : TokenKind} {t : List Char}
    {v : Option Literal} (h : string text value cs = .token kind t v) :
    t <+: text.reverse ++ cs := by
  fun_induction string text value cs with
  | case1 => simp at h
  | case2 text value cs =>
    simp only [token.injEq] at h
    refine ⟨cs, ?_⟩
    simp [← h.2.1]
  | case3 => simp at h
  | case4 text value c cs v _ ih => simpa using ih h
  | case5 => simp at h
  | case6 text value c cs _ _ _ ih => simpa using ih h

theorem hex_front {intro rest : List Char} {kind : TokenKind} {t : List Char}
    {v : Option Literal} (h : hex intro rest = .token kind t v) : t <+: intro ++ rest := by
  simp only [hex] at h
  split at h
  · simp at h
  · split at h
    · simp only [token.injEq] at h
      rw [← h.2.1]
      exact (List.prefix_append_right_inj intro).mpr (List.takeWhile_prefix _)
    · simp at h

theorem fraction_front (cs : List Char) (h : fraction cs ≠ []) : '.' :: fraction cs <+: cs := by
  unfold fraction at h ⊢
  split at h
  · exact (List.prefix_cons_inj '.').mpr (List.takeWhile_prefix _)
  · exact absurd rfl h

theorem decimal_front {cs : List Char} {kind : TokenKind} {t : List Char} {v : Option Literal}
    (h : decimal cs = .token kind t v) : t <+: cs := by
  simp only [decimal, token.injEq] at h
  rw [← h.2.1]
  conv => rhs; rw [← List.takeWhile_append_dropWhile (p := Char.isDigit) (l := cs)]
  apply (List.prefix_append_right_inj _).mpr
  split
  · exact List.nil_prefix
  · rename_i hne
    exact fraction_front _ (by simpa using hne)

theorem number_front {cs : List Char} {kind : TokenKind} {t : List Char} {v : Option Literal}
    (h : number cs = .token kind t v) : t <+: cs := by
  unfold number at h
  split at h
  · exact hex_front h
  · exact hex_front h
  · exact decimal_front h

theorem ofChars?_chars {cs : List Char} {s : Symbol} (h : Symbol.ofChars? cs = some s) :
    s.chars = cs := by
  simpa using List.find?_some h

theorem symbol_front {c : Char} {rest : List Char} {kind : TokenKind} {t : List Char}
    {v : Option Literal} (h : symbol c rest = .token kind t v) :
    t <+: c :: rest ∧ ∃ s, kind = .symbol s ∧ t = s.chars := by
  unfold symbol at h
  split at h
  · rename_i s hs
    simp only [token.injEq] at h
    obtain ⟨rfl, rfl, -⟩ := h
    rw [ofChars?_chars hs]
    exact ⟨(List.prefix_cons_inj c).mpr (List.take_prefix 1 rest), s, rfl, (ofChars?_chars hs).symm⟩
  · split at h
    · rename_i s hs
      simp only [token.injEq] at h
      obtain ⟨rfl, rfl, -⟩ := h
      rw [ofChars?_chars hs]
      exact ⟨(List.prefix_cons_inj c).mpr List.nil_prefix, s, rfl, (ofChars?_chars hs).symm⟩
    · simp at h

theorem read_front {c : Char} {rest : List Char} {kind : TokenKind} {t : List Char}
    {v : Option Literal} (h : read c rest = .token kind t v) : t <+: c :: rest := by
  unfold read at h
  split at h
  · rename_i hc
    exact hc ▸ string_front h
  · split at h
    · exact number_front h
    · split at h
      · simp only [word, token.injEq] at h
        exact h.2.1 ▸ List.takeWhile_prefix _
      · exact (symbol_front h).1

theorem string_kind {text value cs : List Char} {kind : TokenKind} {t : List Char}
    {v : Option Literal} (h : string text value cs = .token kind t v) : kind = .string := by
  fun_induction string text value cs with
  | case1 | case3 | case5 => simp at h
  | case2 =>
    simp only [token.injEq] at h
    exact h.1.symm
  | case4 _ _ _ _ _ _ ih => exact ih h
  | case6 _ _ _ _ _ _ _ ih => exact ih h

theorem number_kind {cs : List Char} {kind : TokenKind} {t : List Char} {v : Option Literal}
    (h : number cs = .token kind t v) : kind = .number := by
  have hhex {intro rest : List Char} (h : hex intro rest = .token kind t v) : kind = .number := by
    simp only [hex] at h
    split at h
    · simp at h
    · split at h <;> simp_all
  unfold number at h
  split at h
  · exact hhex h
  · exact hhex h
  · simp only [decimal, token.injEq] at h
    exact h.1.symm

theorem word_kind {cs : List Char} {kind : TokenKind} {t : List Char} {v : Option Literal}
    (h : word cs = .token kind t v) :
    kind = .identifier ∨ ∃ k, kind = .keyword k ∧ k.text = .ofList t := by
  simp only [word, token.injEq] at h
  obtain ⟨rfl, rfl, -⟩ := h
  cases hk : Keyword.ofText? (.ofList (cs.takeWhile isWordPart)) with
  | none => exact .inl rfl
  | some k => exact .inr ⟨k, rfl, by simpa using List.find?_some hk⟩

theorem read_spelling {c : Char} {rest : List Char} {kind : TokenKind} {t : List Char}
    {v : Option Literal} (h : read c rest = .token kind t v) :
    kind ≠ .endOfInput ∧ ∀ s, kind.spelling? = some s → String.ofList t = s := by
  unfold read at h
  split at h
  · obtain rfl := string_kind h
    exact ⟨nofun, nofun⟩
  · split at h
    · obtain rfl := number_kind h
      exact ⟨nofun, nofun⟩
    · split at h
      · rcases word_kind h with rfl | ⟨k, rfl, hk⟩
        · exact ⟨nofun, nofun⟩
        · exact ⟨nofun, fun s hs => hk.symm.trans (Option.some.inj hs)⟩
      · obtain ⟨-, s, rfl, rfl⟩ := symbol_front h
        exact ⟨nofun, fun _ hs => Option.some.inj hs⟩

theorem string_fault_front {text value cs : List Char} {f : LexicalFault} {t front : List Char}
    (h : string text value cs = .fault f t front) : front <+: text.reverse ++ cs := by
  fun_induction string text value cs with
  | case1 | case3 =>
    simp only [fault.injEq] at h
    exact h.2.2 ▸ List.nil_prefix
  | case2 => simp at h
  | case4 text value c rest v hv ih => simpa using ih h
  | case5 text value c rest hc =>
    simp only [fault.injEq] at h
    exact h.2.2 ▸ List.prefix_append _ _
  | case6 text value c rest _ _ _ ih => simpa using ih h

theorem hex_fault_front {intro cs : List Char} {f : LexicalFault} {t front : List Char}
    (h : hex intro cs = .fault f t front) : front = [] := by
  simp only [hex] at h
  split at h
  · simp only [fault.injEq] at h
    exact h.2.2.symm
  · split at h <;> cases h

theorem number_fault_front {cs : List Char} {f : LexicalFault} {t front : List Char}
    (h : number cs = .fault f t front) : front = [] := by
  unfold number at h
  split at h
  · exact hex_fault_front h
  · exact hex_fault_front h
  · cases h

theorem symbol_fault_front {c : Char} {rest : List Char} {f : LexicalFault} {t front : List Char}
    (h : symbol c rest = .fault f t front) : front = [] := by
  unfold symbol at h
  split at h
  · cases h
  · split at h
    · cases h
    · simp only [fault.injEq] at h
      exact h.2.2.symm

theorem read_fault_front {c : Char} {rest : List Char} {f : LexicalFault} {t front : List Char}
    (h : read c rest = .fault f t front) : front <+: c :: rest := by
  unfold read at h
  split at h
  · rename_i hc
    exact hc ▸ string_fault_front h
  · suffices hfront : front = [] from hfront ▸ List.nil_prefix
    split at h
    · exact number_fault_front h
    · split at h
      · cases h
      · exact symbol_fault_front h

def StartsHex (cs digits : List Char) : Prop :=
  ∃ x rest, cs = '0' :: x :: (digits ++ rest) ∧ (x = 'x' ∨ x = 'X') ∧
    (∀ c ∈ digits, isHexDigit c) ∧ ∀ c, rest.head? = some c → ¬isHexDigit c

theorem startsHex (x : Char) (hx : x = 'x' ∨ x = 'X') (rest : List Char) :
    StartsHex ('0' :: x :: rest) (rest.takeWhile isHexDigit) := by
  refine ⟨x, rest.dropWhile isHexDigit, ?_, hx, fun c hc => ?_, fun c hc hdigit => ?_⟩
  · rw [List.takeWhile_append_dropWhile]
  · exact List.all_eq_true.mp List.all_takeWhile c hc
  · have hhead := List.head?_dropWhile_not isHexDigit rest
    rw [hc] at hhead
    simp [hdigit] at hhead

theorem hex_overflow {intro rest text : List Char} (h : hex intro rest = .overflow text) :
    Number.ofHex? (rest.takeWhile isHexDigit) = none := by
  simp only [hex] at h
  split at h
  · simp at h
  · split at h
    · simp at h
    · assumption

theorem string_ne_overflow (text value cs t : List Char) : string text value cs ≠ .overflow t := by
  fun_induction string text value cs <;> simp_all

theorem number_overflow {cs text : List Char} (h : number cs = .overflow text) :
    ∃ digits, StartsHex cs digits ∧ Number.ofHex? digits = none := by
  unfold number at h
  split at h
  · exact ⟨_, startsHex 'x' (.inl rfl) _, hex_overflow h⟩
  · exact ⟨_, startsHex 'X' (.inr rfl) _, hex_overflow h⟩
  · cases h

theorem symbol_ne_overflow (c : Char) (rest t : List Char) : symbol c rest ≠ .overflow t := by
  unfold symbol
  split
  · exact nofun
  · split <;> exact nofun

theorem read_overflow {c : Char} {rest text : List Char} (h : read c rest = .overflow text) :
    ∃ digits, StartsHex (c :: rest) digits ∧ Number.ofHex? digits = none := by
  unfold read at h
  split at h
  · exact absurd h (string_ne_overflow _ _ _ _)
  · split at h
    · exact number_overflow h
    · split at h
      · cases h
      · exact absurd h (symbol_ne_overflow _ _ _)

end Lexeme

end Scriptlet
