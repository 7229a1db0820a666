import Scriptlet.Lexeme

namespace Scriptlet.Lexeme

def IsLetter (c : Char) : Prop :=
  'a' ≤ c ∧ c ≤ 'z' ∨ 'A' ≤ c ∧ c ≤ 'Z' ∨ c = '_'

def IsDigit (c : Char) : Prop :=
  '0' ≤ c ∧ c ≤ '9'

def IsHex (c : Char) : Prop :=
  IsDigit c ∨ 'a' ≤ c ∧ c ≤ 'f' ∨ 'A' ≤ c ∧ c ≤ 'F'

def escapable : List Char :=
  ['n', 't', 'r', '0', '"', '\\']

inductive StringBody : List Char → Prop
  | nil : StringBody []
  | plain {c : Char} {cs : List Char} (hquote : c ≠ '"') (hbackslash : c ≠ '\\')
      (h : StringBody cs) : StringBody (c :: cs)
  | escape {c : Char} {cs : List Char} (hc : c ∈ escapable) (h : StringBody cs) :
      StringBody ('\\' :: c :: cs)

inductive Numeral : List Char → Prop
  | whole {ds : List Char} (hne : ds ≠ []) (hds : ∀ d ∈ ds, IsDigit d) : Numeral ds
  | fraction {ds es : List Char} (hne : ds ≠ []) (hds : ∀ d ∈ ds, IsDigit d) (hne' : es ≠ [])
      (hes : ∀ d ∈ es, IsDigit d) : Numeral (ds ++ '.' :: es)
  | hex {x : Char} {ds : List Char} (hx : x = 'x' ∨ x = 'X') (hne : ds ≠ [])
      (hds : ∀ d ∈ ds, IsHex d) : Numeral ('0' :: x :: ds)

def KindOfWord (kind : TokenKind) (text : List Char) : Prop :=
  (∃ k : Keyword, kind = .keyword k ∧ k.text.toList = text) ∨
    kind = .identifier ∧ ∀ k : Keyword, k.text.toList ≠ text

inductive OfKind : TokenKind → List Char → Prop
  | word {kind : TokenKind} {c : Char} {cs : List Char} (hc : IsLetter c)
      (hcs : ∀ d ∈ cs, IsLetter d ∨ IsDigit d) (hkind : KindOfWord kind (c :: cs)) :
      OfKind kind (c :: cs)
  | number {cs : List Char} (h : Numeral cs) : OfKind .number cs
  | string {body : List Char} (h : StringBody body) : OfKind .string ('"' :: body ++ ['"'])
  | symbol (s : Symbol) : OfKind (.symbol s) s.chars

structure Longest (cs text : List Char) : Prop where
  lexeme : ∃ kind, OfKind kind text
  front : text <+: cs
  longest {kind : TokenKind} {u : List Char} : OfKind kind u → u <+: cs → u.length ≤ text.length

def NoneOf (cs : List Char) : Prop :=
  ∀ kind u, OfKind kind u → ¬u <+: cs

def BareHex (cs : List Char) : Prop :=
  ∃ x rest, cs = '0' :: x :: rest ∧ (x = 'x' ∨ x = 'X') ∧ ∀ c, rest.head? = some c → ¬IsHex c

inductive Blames : (cs : List Char) → LexicalFault → (front : List Char) → Prop
  | unexpected {c : Char} {rest : List Char} (hc : c ≠ '"') (hnone : NoneOf (c :: rest)) :
      Blames (c :: rest) (.unexpected c) []
  | endless {body : List Char} (h : StringBody body) :
      Blames ('"' :: body) .unterminatedString []
  | backslash {body : List Char} (h : StringBody body) :
      Blames ('"' :: body ++ ['\\']) .unterminatedString []
  | escape {body rest : List Char} {c : Char} (h : StringBody body) (hc : c ∉ escapable) :
      Blames ('"' :: body ++ '\\' :: c :: rest) (.invalidEscape c) ('"' :: body)
  | hex {x : Char} {rest : List Char} (hx : x = 'x' ∨ x = 'X')
      (hrest : ∀ c, rest.head? = some c → ¬IsHex c) :
      Blames ('0' :: x :: rest) (.malformedHex rest.head?) []

theorem isDigit_iff {c : Char} : c.isDigit = true ↔ IsDigit c := by
  simp [Char.isDigit, IsDigit, Char.le_def]

theorem isWordStart_iff {c : Char} : isWordStart c = true ↔ IsLetter c := by
  have hupper : c.isUpper = true ↔ 'A' ≤ c ∧ c ≤ 'Z' := decide_eq_true_iff
  have hlower : c.isLower = true ↔ 'a' ≤ c ∧ c ≤ 'z' := by
    change (decide ('a' ≤ c) && decide (c ≤ 'z')) = true ↔ _
    rw [Bool.and_eq_true, decide_eq_true_iff, decide_eq_true_iff]
  change (c.isUpper || c.isLower || decide (c = '_')) = true ↔ _
  rw [Bool.or_eq_true, Bool.or_eq_true, hupper, hlower, decide_eq_true_eq, or_assoc, or_left_comm]
  rfl

theorem isWordPart_iff {c : Char} : isWordPart c = true ↔ IsLetter c ∨ IsDigit c := by
  rw [isWordPart, Bool.or_eq_true, isWordStart_iff, isDigit_iff]

theorem isHexDigit_iff {c : Char} : isHexDigit c = true ↔ IsHex c := by
  simp [isHexDigit, IsHex, isDigit_iff, or_assoc]

instance (c : Char) : Decidable (IsLetter c) :=
  inferInstanceAs (Decidable (_ ∨ _))

instance (c : Char) : Decidable (IsDigit c) :=
  inferInstanceAs (Decidable (_ ∧ _))

instance (c : Char) : Decidable (IsHex c) :=
  inferInstanceAs (Decidable (_ ∨ _))

theorem IsDigit.not_isLetter {c : Char} (h : IsDigit c) : ¬IsLetter c := by
  have h9 : c.toNat ≤ 57 := h.2
  rintro (⟨ha, -⟩ | ⟨hA, -⟩ | rfl)
  · have : 97 ≤ c.toNat := ha
    omega
  · have : 65 ≤ c.toNat := hA
    omega
  · revert h
    decide

theorem Numeral.ne_nil {cs : List Char} (h : Numeral cs) : cs ≠ [] := by
  cases h with
  | whole hne => exact hne
  | fraction => simp
  | hex => exact nofun

theorem Numeral.isDigit_head {c : Char} {cs : List Char} (h : Numeral (c :: cs)) : IsDigit c := by
  generalize hu : c :: cs = u at h
  cases h with
  | whole hne hds =>
    subst hu
    exact hds c List.mem_cons_self
  | fraction hne hds =>
    obtain ⟨d, ds, rfl⟩ := List.exists_cons_of_ne_nil hne
    obtain ⟨rfl, -⟩ := List.cons.inj hu
    exact hds c List.mem_cons_self
  | hex =>
    obtain ⟨rfl, -⟩ := List.cons.inj hu
    decide

structure OpensSymbol (c : Char) : Prop where
  letter : ¬IsLetter c
  digit : ¬IsDigit c
  quote : c ≠ '"'

theorem opensSymbol_head (s : Symbol) : ∀ c ∈ s.chars.head?, OpensSymbol c := by
  have hall : s.chars.head?.all (fun c => ¬IsLetter c ∧ ¬IsDigit c ∧ c ≠ '"') = true := by
    cases s <;> decide
  intro c hc
  obtain ⟨hletter, hdigit, hquote⟩ := of_decide_eq_true ((Option.all_eq_true ..).mp hall c hc)
  exact ⟨hletter, hdigit, hquote⟩

namespace OfKind

variable {kind kind' : TokenKind} {c : Char} {u cs : List Char}

theorem ne_nil (h : OfKind kind u) : u ≠ [] := by
  cases h with
  | word | string => exact nofun
  | number h => exact h.ne_nil
  | symbol s => exact chars_ne_nil s

theorem exists_cons (h : OfKind kind u) (hu : u <+: c :: cs) : ∃ v, u = c :: v := by
  obtain ⟨d, v, rfl⟩ := List.exists_cons_of_ne_nil h.ne_nil
  exact ⟨v, by rw [(List.cons_prefix_cons.mp hu).1]⟩

theorem of_quote (h : OfKind kind ('"' :: u)) :
    kind = .string ∧ ∃ body, StringBody body ∧ u = body ++ ['"'] := by
  generalize hv : '"' :: u = v at h
  cases h with
  | word hc =>
    obtain ⟨rfl, -⟩ := List.cons.inj hv
    exact absurd hc (by decide)
  | number h =>
    subst hv
    exact absurd h.isDigit_head (by decide)
  | string h => exact ⟨rfl, _, h, (List.cons.inj hv).2⟩
  | symbol s => exact absurd rfl (opensSymbol_head s '"' (by rw [← hv]; rfl)).quote

theorem of_digit (hc : IsDigit c) (h : OfKind kind (c :: u)) : kind = .number ∧ Numeral (c :: u) := by
  generalize hv : c :: u = v at h
  cases h with
  | word hletter =>
    obtain ⟨rfl, -⟩ := List.cons.inj hv
    exact absurd hletter hc.not_isLetter
  | number h => exact ⟨rfl, h⟩
  | string =>
    obtain ⟨rfl, -⟩ := List.cons.inj hv
    exact absurd hc (by decide)
  | symbol s => exact absurd hc (opensSymbol_head s c (by rw [← hv]; rfl)).digit

theorem of_letter (hc : IsLetter c) (h : OfKind kind (c :: u)) :
    KindOfWord kind (c :: u) ∧ ∀ d ∈ c :: u, IsLetter d ∨ IsDigit d := by
  generalize hv : c :: u = v at h
  cases h with
  | word hletter hcs hkind => exact ⟨hkind, List.forall_mem_cons.mpr ⟨.inl hletter, hcs⟩⟩
  | number h =>
    subst hv
    exact absurd hc h.isDigit_head.not_isLetter
  | string =>
    obtain ⟨rfl, -⟩ := List.cons.inj hv
    exact absurd hc (by decide)
  | symbol s => exact absurd hc (opensSymbol_head s c (by rw [← hv]; rfl)).letter

theorem of_other (hc : OpensSymbol c) (h : OfKind kind (c :: u)) :
    ∃ s : Symbol, kind = .symbol s ∧ c :: u = s.chars := by
  generalize hv : c :: u = v at h
  cases h with
  | word hletter =>
    obtain ⟨rfl, -⟩ := List.cons.inj hv
    exact absurd hletter hc.letter
  | number h =>
    subst hv
    exact absurd h.isDigit_head hc.digit
  | string =>
    obtain ⟨rfl, -⟩ := List.cons.inj hv
    exact absurd rfl hc.quote
  | symbol s => exact ⟨s, rfl, rfl⟩

end OfKind

theorem KindOfWord.unique {kind kind' : TokenKind} {u : List Char} (h : KindOfWord kind u)
    (h' : KindOfWord kind' u) : kind = kind' := by
  have hinj : ∀ k k' : Keyword, k.text.toList = k'.text.toList → k = k' := by
    intro k k'
    cases k <;> cases k' <;> decide
  rcases h with ⟨k, rfl, hk⟩ | ⟨rfl, hfree⟩ <;> rcases h' with ⟨k', rfl, hk'⟩ | ⟨rfl, hfree'⟩
  · rw [hinj k k' (hk.trans hk'.symm)]
  · exact absurd hk (hfree' k)
  · exact absurd hk' (hfree k')
  · rfl

theorem OfKind.unique {kind kind' : TokenKind} {u : List Char} (h : OfKind kind u)
    (h' : OfKind kind' u) : kind = kind' := by
  cases h with
  | word hc _ hkind => exact hkind.unique (of_letter hc h').1
  | number h =>
    obtain ⟨c, v, rfl⟩ := List.exists_cons_of_ne_nil (OfKind.number h).ne_nil
    exact (of_digit h.isDigit_head h').1.symm
  | string => exact (of_quote h').1.symm
  | symbol s =>
    have hinj : ∀ s s' : Symbol, s.chars = s'.chars → s = s' := by
      intro s s'
      cases s <;> cases s' <;> decide
    obtain ⟨c, v, hv⟩ := List.exists_cons_of_ne_nil (chars_ne_nil s)
    rw [hv] at h'
    obtain ⟨s', rfl, hs'⟩ := of_other (opensSymbol_head s c (by rw [hv]; rfl)) h'
    rw [hinj s s' (hv.trans hs')]

end Scriptlet.Lexeme
