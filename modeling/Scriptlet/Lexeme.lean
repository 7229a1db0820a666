import Scriptlet.Token
import Scriptlet.Number.Reading

/-!
Lexemes: what stands at the front of a source text, read from its characters alone.
A gap and what stands behind it are the whole text (`splitGap_append`), and a lexeme that is a
token takes at least one character (`read_text_ne_nil`).
-/

namespace Scriptlet

inductive LexicalFault
  | unterminatedString
  | invalidEscape (c : Char)
  | malformedHex (next : Option Char)
  | unexpected (c : Char)
  deriving DecidableEq

inductive Lexeme
  | token (kind : TokenKind) (text : List Char) (value : Option Literal)
  /-- Nothing that can be read; `before` is the part of the text in front of the place to blame. -/
  | fault (fault : LexicalFault) (text before : List Char)
  | overflow (text : List Char)

namespace Lexeme

def isSpace (c : Char) : Bool :=
  c = ' ' || c = '\t' || c = '\n' || c = '\r'

def isWordStart (c : Char) : Bool :=
  c.isAlpha || c = '_'

def isWordPart (c : Char) : Bool :=
  isWordStart c || c.isDigit

def isHexDigit (c : Char) : Bool :=
  c.isDigit || ('a' ≤ c && c ≤ 'f') || ('A' ≤ c && c ≤ 'F')

def escape? : Char → Option Char
  | 'n' => some '\n'
  | 't' => some '\t'
  | 'r' => some '\r'
  | '0' => some '\x00'
  | '"' => some '"'
  | '\\' => some '\\'
  | _ => none

/-- Splits off the blanks and line comments at the front. The line feed that ends a comment is a
blank. `passed` holds, in reverse, what is split off already. -/
def splitGap (inComment : Bool) (passed : List Char) : List Char → List Char × List Char
  | [] => (passed.reverse, [])
  | c :: rest =>
    if inComment then splitGap (c ≠ '\n') (c :: passed) rest
    else if isSpace c then splitGap false (c :: passed) rest
    else if c = '/' ∧ rest.head? = some '/' then splitGap true (c :: passed) rest
    else (passed.reverse, c :: rest)

def string (text value : List Char) : List Char → Lexeme
  | [] => .fault .unterminatedString text.reverse []
  | '"' :: _ => .token .string ('"' :: text).reverse (some (.string (.ofList value.reverse)))
  | '\\' :: [] => .fault .unterminatedString ('\\' :: text).reverse []
  | '\\' :: c :: rest =>
    match escape? c with
    | some v => string (c :: '\\' :: text) (v :: value) rest
    | none => .fault (.invalidEscape c) ('\\' :: text).reverse text.reverse
  | c :: rest => string (c :: text) (c :: value) rest

def hex (intro rest : List Char) : Lexeme :=
  let digits := rest.takeWhile isHexDigit
  if digits.isEmpty then .fault (.malformedHex rest.head?) intro []
  else
    match Number.ofHex? digits with
    | some x => .token .number (intro ++ digits) (some (.number x))
    | none => .overflow (intro ++ digits)

def fraction : List Char → List Char
  | '.' :: rest => rest.takeWhile Char.isDigit
  | _ => []

def decimal (cs : List Char) : Lexeme :=
  let whole := cs.takeWhile Char.isDigit
  let digits := fraction (cs.dropWhile Char.isDigit)
  let point := if digits.isEmpty then [] else '.' :: digits
  .token .number (whole ++ point) (some (.number (Number.ofDecimal whole digits 0)))

def number : List Char → Lexeme
  | '0' :: 'x' :: rest => hex ['0', 'x'] rest
  | '0' :: 'X' :: rest => hex ['0', 'X'] rest
  | cs => decimal cs

def word (cs : List Char) : Lexeme :=
  let text := cs.takeWhile isWordPart
  .token ((Keyword.ofText? (.ofList text)).elim .identifier .keyword) text none

def symbol (c : Char) (rest : List Char) : Lexeme :=
  match Symbol.ofChars? (c :: rest.take 1) with
  | some s => .token (.symbol s) s.chars none
  | none =>
    match Symbol.ofChars? [c] with
    | some s => .token (.symbol s) s.chars none
    | none => .fault (.unexpected c) [] []

def read (c : Char) (rest : List Char) : Lexeme :=
  if c = '"' then string ['"'] [] rest
  else if c.isDigit then number (c :: rest)
  else if isWordStart c then word (c :: rest)
  else symbol c rest

theorem splitGap_append (inComment : Bool) (passed cs : List Char) :
    (splitGap inComment passed cs).1 ++ (splitGap inComment passed cs).2 =
      passed.reverse ++ cs := by
  fun_induction splitGap inComment passed cs with
  | case1 => rfl
  | case2 _ _ _ ih => simpa using ih
  | case3 _ _ _ _ _ _ ih => simpa using ih
  | case4 _ _ _ _ _ _ _ ih => simpa using ih
  | case5 => rfl

theorem string_text_ne_nil {text value cs : List Char} {kind : TokenKind} {t : List Char}
    {v : Option Literal} (h : string text value cs = .token kind t v) : t ≠ [] := by
  fun_induction string text value cs with
  | case1 => simp at h
  | case2 =>
    simp only [token.injEq] at h
    simp [← h.2.1]
  | case3 => simp at h
  | case4 _ _ _ _ _ _ ih => exact ih h
  | case5 => simp at h
  | case6 _ _ _ _ _ _ _ ih => exact ih h

theorem hex_text_ne_nil {intro rest : List Char} {kind : TokenKind} {t : List Char}
    {v : Option Literal} (h : hex intro rest = .token kind t v) : t ≠ [] := by
  simp only [hex] at h
  split at h
  · simp at h
  · rename_i hd
    split at h
    · simp only [token.injEq] at h
      rw [← h.2.1]
      intro hn
      simp [(List.append_eq_nil_iff.mp hn).2] at hd
    · simp at h

theorem takeWhile_ne_nil {p : Char → Bool} {c : Char} {rest : List Char} (h : p c = true) :
    (c :: rest).takeWhile p ≠ [] := by
  simp [h]

theorem decimal_text_ne_nil {c : Char} {rest : List Char} {kind : TokenKind} {t : List Char}
    {v : Option Literal} (hc : c.isDigit = true) (h : decimal (c :: rest) = .token kind t v) :
    t ≠ [] := by
  simp only [decimal, token.injEq] at h
  rw [← h.2.1]
  intro hn
  exact takeWhile_ne_nil hc (List.append_eq_nil_iff.mp hn).1

theorem number_text_ne_nil {c : Char} {rest : List Char} {kind : TokenKind} {t : List Char}
    {v : Option Literal} (hc : c.isDigit = true) (h : number (c :: rest) = .token kind t v) :
    t ≠ [] := by
  unfold number at h
  split at h
  · exact hex_text_ne_nil h
  · exact hex_text_ne_nil h
  · exact decimal_text_ne_nil hc h

theorem chars_ne_nil (s : Symbol) : s.chars ≠ [] := by
  cases s <;> simp [Symbol.chars]

theorem symbol_text_ne_nil {c : Char} {rest : List Char} {kind : TokenKind} {t : List Char}
    {v : Option Literal} (h : symbol c rest = .token kind t v) : t ≠ [] := by
  unfold symbol at h
  split at h
  · simp only [token.injEq] at h
    exact h.2.1 ▸ chars_ne_nil _
  · split at h
    · simp only [token.injEq] at h
      exact h.2.1 ▸ chars_ne_nil _
    · simp at h

theorem read_text_ne_nil {c : Char} {rest : List Char} {kind : TokenKind} {t : List Char}
    {v : Option Literal} (h : read c rest = .token kind t v) : t ≠ [] := by
  unfold read at h
  split at h
  · exact string_text_ne_nil h
  · split at h
    · rename_i hd
      exact number_text_ne_nil hd h
    · split at h
      · rename_i hw
        simp only [word, token.injEq] at h
        rw [← h.2.1]
        exact takeWhile_ne_nil (by simp [isWordPart, hw])
      · exact symbol_text_ne_nil h

end Lexeme

end Scriptlet
