import Scriptlet.Proofs.LexemeBounds
import Scriptlet.Proofs.LexicalGrammar
import Scriptlet.Proofs.NumberRange
import Scriptlet.Proofs.Tiling

namespace Scriptlet

namespace Lexeme

inductive Meets (cs : List Char) : Lexeme → Prop
  | token {kind : TokenKind} {text : List Char} (value : Option Literal) (h : Longest cs text)
      (hkind : OfKind kind text) (hhex : ¬BareHex cs) : Meets cs (.token kind text value)
  | fault {f : LexicalFault} {front : List Char} (text : List Char) (hnone : NoneOf cs ∨ BareHex cs)
      (hcause : Blames cs f front) : Meets cs (.fault f text front)
  | overflow {x : Char} {digits : List Char} (h : Longest cs ('0' :: x :: digits))
      (hx : x = 'x' ∨ x = 'X') (hlarge : 2 ^ 1024 - 2 ^ 970 ≤ Number.ofDigits 16 digits) :
      Meets cs (.overflow ('0' :: x :: digits))

theorem length_le_takeWhile {p : Char → Bool} {u cs : List Char} (hu : u <+: cs)
    (h : ∀ d ∈ u, p d = true) : u.length ≤ (cs.takeWhile p).length := by
  obtain ⟨r, rfl⟩ := hu
  rw [List.takeWhile_append_of_pos h, List.length_append]
  omega

theorem not_bareHex {c : Char} {cs : List Char} (hc : c ≠ '0') : ¬BareHex (c :: cs) := by
  rintro ⟨x, rest, heq, -⟩
  exact hc (List.cons.inj heq).1

theorem ofText?_kind (text : List Char) :
    KindOfWord ((Keyword.ofText? (.ofList text)).elim .identifier .keyword) text := by
  have hmem : ∀ k : Keyword, k ∈ Keyword.all := by
    intro k
    cases k <;> decide
  cases hk : Keyword.ofText? (.ofList text) with
  | some k =>
    have htext : k.text = .ofList text := by simpa using List.find?_some hk
    exact .inl ⟨k, rfl, by rw [htext, String.toList_ofList]⟩
  | none =>
    refine .inr ⟨rfl, ?_⟩
    rintro k rfl
    have hfind := List.find?_eq_none.mp hk k (hmem k)
    simp at hfind

theorem word_meets {c : Char} {rest : List Char} (hc : IsLetter c) :
    Meets (c :: rest) (word (c :: rest)) := by
  have hpart : isWordPart c = true := isWordPart_iff.mpr (.inl hc)
  have htext : (c :: rest).takeWhile isWordPart = c :: rest.takeWhile isWordPart := by
    rw [List.takeWhile_cons, if_pos hpart]
  have hparts : ∀ d ∈ rest.takeWhile isWordPart, IsLetter d ∨ IsDigit d :=
    fun d hd => isWordPart_iff.mp (List.all_eq_true.mp List.all_takeWhile d hd)
  have hlexeme : OfKind ((Keyword.ofText? (.ofList (c :: rest.takeWhile isWordPart))).elim
      .identifier .keyword) (c :: rest.takeWhile isWordPart) :=
    .word hc hparts (ofText?_kind _)
  have hzero : c ≠ '0' := by
    rintro rfl
    exact absurd hc (by decide)
  unfold word
  simp only [htext]
  refine .token none ⟨⟨_, hlexeme⟩, ?_, fun {kind u} h hu => ?_⟩ hlexeme (not_bareHex hzero)
  · rw [← htext]
    exact List.takeWhile_prefix _
  · obtain ⟨v, rfl⟩ := h.exists_cons hu
    rw [← htext]
    exact length_le_takeWhile hu fun d hd => isWordPart_iff.mpr ((h.of_letter hc).2 d hd)

theorem ofChars?_some {cs : List Char} (s : Symbol) (h : s.chars = cs) :
    ∃ s', Symbol.ofChars? cs = some s' := by
  have hmem : s ∈ Symbol.all := by cases s <;> decide
  have hsome : (Symbol.ofChars? cs).isSome := List.find?_isSome.mpr ⟨s, hmem, by simpa using h⟩
  exact Option.isSome_iff_exists.mp hsome

theorem length_chars (s : Symbol) : s.chars.length = 1 ∨ s.chars.length = 2 := by
  cases s <;> decide

theorem chars_front {c : Char} {rest : List Char} {s : Symbol} (h : s.chars <+: c :: rest) :
    s.chars = c :: rest.take 1 ∨ s.chars = [c] := by
  rw [List.prefix_iff_eq_take] at h
  rcases length_chars s with hlength | hlength <;> rw [hlength] at h
  · exact .inr (by simpa using h)
  · exact .inl (by simpa using h)

theorem symbol_meets {c : Char} {rest : List Char} (hc : OpensSymbol c) :
    Meets (c :: rest) (symbol c rest) := by
  have hzero : c ≠ '0' := by
    rintro rfl
    exact hc.digit (by decide)
  -- Every lexeme in front is a symbol, of the two characters or of the first one.
  have hlexeme {kind : TokenKind} {u : List Char} (h : OfKind kind u) (hu : u <+: c :: rest) :
      ∃ s : Symbol, u = s.chars ∧ (s.chars = c :: rest.take 1 ∨ s.chars = [c]) := by
    obtain ⟨v, rfl⟩ := h.exists_cons hu
    obtain ⟨s, -, hs⟩ := h.of_other hc
    exact ⟨s, hs, chars_front (hs ▸ hu)⟩
  unfold symbol
  split
  · rename_i s hs
    have hchars := ofChars?_chars hs
    refine .token none ⟨⟨_, .symbol s⟩, ?_, fun {kind u} h hu => ?_⟩ (.symbol s) (not_bareHex hzero)
    · rw [hchars]
      exact (List.prefix_cons_inj c).mpr (List.take_prefix 1 rest)
    · obtain ⟨s', rfl, hs' | hs'⟩ := hlexeme h hu
      · rw [hs', hchars]
      · rw [hs', hchars]
        simp
  · rename_i hpair
    have hone {s : Symbol} (hs : s.chars = c :: rest.take 1 ∨ s.chars = [c]) : s.chars = [c] := by
      refine hs.resolve_left fun hs => ?_
      obtain ⟨s', hs'⟩ := ofChars?_some s hs
      rw [hs'] at hpair
      cases hpair
    split
    · rename_i s hs
      have hchars := ofChars?_chars hs
      refine .token none ⟨⟨_, .symbol s⟩, ?_, fun {kind u} h hu => ?_⟩ (.symbol s) (not_bareHex hzero)
      · rw [hchars]
        exact (List.prefix_cons_inj c).mpr List.nil_prefix
      · obtain ⟨s', rfl, hs'⟩ := hlexeme h hu
        rw [hone hs', hchars]
    · rename_i hsingle
      have hnone : NoneOf (c :: rest) := by
        intro kind u h hu
        obtain ⟨s', rfl, hs'⟩ := hlexeme h hu
        obtain ⟨s'', hs''⟩ := ofChars?_some s' (hone hs')
        rw [hs''] at hsingle
        cases hsingle
      exact .fault [] (.inl hnone) (.unexpected hc.quote hnone)

inductive EndsBody : List Char → Prop
  | nil : EndsBody []
  | quote (rest : List Char) : EndsBody ('"' :: rest)
  | backslash : EndsBody ['\\']
  | escape {c : Char} (hc : c ∉ escapable) (rest : List Char) : EndsBody ('\\' :: c :: rest)

theorem EndsBody.of_append {b s : List Char} (h : EndsBody (b ++ s)) (hb : StringBody b) : b = [] := by
  cases hb with
  | nil => rfl
  | plain hquote hbackslash =>
    rw [List.cons_append] at h
    generalize _ ++ s = r at h
    cases h with
    | quote => exact absurd rfl hquote
    | backslash | escape => exact absurd rfl hbackslash
  | escape hc =>
    rw [List.cons_append, List.cons_append] at h
    generalize _ ++ s = r at h
    cases h with
    | escape hc' => exact absurd hc hc'

theorem StringBody.unique {b b' s s' : List Char} (hb : StringBody b) (hb' : StringBody b')
    (hs : EndsBody s) (hs' : EndsBody s') (h : b ++ s = b' ++ s') : b = b' ∧ s = s' := by
  induction hb generalizing b' with
  | nil =>
    rw [List.nil_append] at h
    obtain rfl := (h ▸ hs).of_append hb'
    exact ⟨rfl, h⟩
  | plain hquote hbackslash hb ih =>
    cases hb' with
    | nil =>
      rw [List.nil_append] at h
      exact absurd ((h ▸ hs').of_append (.plain hquote hbackslash hb)) nofun
    | plain _ _ hb' =>
      obtain ⟨rfl, htail⟩ := List.cons.inj h
      obtain ⟨rfl, rfl⟩ := ih hb' htail
      exact ⟨rfl, rfl⟩
    | escape => exact absurd (List.cons.inj h).1 hbackslash
  | escape hc hb ih =>
    cases hb' with
    | nil =>
      rw [List.nil_append] at h
      exact absurd ((h ▸ hs').of_append (.escape hc hb)) nofun
    | plain _ hbackslash => exact absurd (List.cons.inj h).1.symm hbackslash
    | escape _ hb' =>
      obtain ⟨rfl, htail⟩ := List.cons.inj (List.cons.inj h).2
      obtain ⟨rfl, rfl⟩ := ih hb' htail
      exact ⟨rfl, rfl⟩

theorem escape?_eq_none {c : Char} : escape? c = none ↔ c ∉ escapable := by
  unfold escape? escapable
  split <;> simp_all

inductive ReadsBody (text : List Char) : (body rest : List Char) → Lexeme → Prop
  | closed {body : List Char} (rest : List Char) (v : Option Literal) :
      ReadsBody text body ('"' :: rest) (.token .string (text ++ body ++ ['"']) v)
  | endless {body : List Char} (t : List Char) :
      ReadsBody text body [] (.fault .unterminatedString t [])
  | backslash {body : List Char} (t : List Char) :
      ReadsBody text body ['\\'] (.fault .unterminatedString t [])
  | escape {body : List Char} {c : Char} (hc : c ∉ escapable) (rest t : List Char) :
      ReadsBody text body ('\\' :: c :: rest) (.fault (.invalidEscape c) t (text ++ body))

theorem ReadsBody.endsBody {text body rest : List Char} {l : Lexeme}
    (h : ReadsBody text body rest l) : EndsBody rest := by
  cases h with
  | closed => exact .quote _
  | endless => exact .nil
  | backslash => exact .backslash
  | escape hc => exact .escape hc _

theorem ReadsBody.more {text body rest : List Char} {l : Lexeme} (more : List Char)
    (h : ReadsBody (text ++ more) body rest l) : ReadsBody text (more ++ body) rest l := by
  cases h with
  | closed =>
    rw [List.append_assoc text more body]
    exact .closed _ _
  | endless => exact .endless _
  | backslash => exact .backslash _
  | escape hc =>
    rw [List.append_assoc text more body]
    exact .escape hc _ _

theorem string_reads (text value cs : List Char) :
    ∃ body rest, cs = body ++ rest ∧ StringBody body ∧
      ReadsBody text.reverse body rest (string text value cs) := by
  fun_induction string text value cs with
  | case1 => exact ⟨[], [], rfl, .nil, .endless _⟩
  | case2 text value rest =>
    refine ⟨[], _, rfl, .nil, ?_⟩
    have hread : ReadsBody text.reverse [] ('"' :: rest) _ :=
      .closed rest (some (.string (.ofList value.reverse)))
    simpa using hread
  | case3 => exact ⟨[], _, rfl, .nil, .backslash _⟩
  | case4 text value c rest v hv ih =>
    obtain ⟨body, more, rfl, hbody, hread⟩ := ih
    have hc : c ∈ escapable := by
      by_contra hc
      rw [escape?_eq_none.mpr hc] at hv
      cases hv
    refine ⟨'\\' :: c :: body, more, rfl, .escape hc hbody, ReadsBody.more ['\\', c] ?_⟩
    simpa using hread
  | case5 text value c rest hc =>
    refine ⟨[], _, rfl, .nil, ?_⟩
    have hread : ReadsBody text.reverse [] ('\\' :: c :: rest) _ :=
      .escape (escape?_eq_none.mp hc) rest ('\\' :: text).reverse
    simpa using hread
  | case6 text value c rest hquote hlast hescape ih =>
    obtain ⟨body, more, rfl, hbody, hread⟩ := ih
    have hslash : c ≠ '\\' := ne_backslash hlast hescape
    refine ⟨c :: body, more, rfl, .plain hquote hslash hbody, ReadsBody.more [c] ?_⟩
    simpa using hread

theorem string_meets (rest : List Char) : Meets ('"' :: rest) (string ['"'] [] rest) := by
  obtain ⟨body, more, rfl, hbody, hread⟩ := string_reads ['"'] [] rest
  have hends := hread.endsBody
  -- The body of a string is unique, so every lexeme in front is this body between quotes.
  have hlexeme {kind : TokenKind} {u : List Char} (h : OfKind kind u)
      (hu : u <+: '"' :: (body ++ more)) :
      u = '"' :: body ++ ['"'] ∧ ∃ rest, more = '"' :: rest := by
    obtain ⟨v, rfl⟩ := h.exists_cons hu
    obtain ⟨-, body', hbody', rfl⟩ := h.of_quote
    obtain ⟨r, hr⟩ := (List.cons_prefix_cons.mp hu).2
    rw [List.append_assoc] at hr
    obtain ⟨rfl, rfl⟩ := hbody'.unique hbody (.quote r) hends hr
    exact ⟨rfl, r, rfl⟩
  have hzero : '"' ≠ '0' := by decide
  generalize string ['"'] [] (body ++ more) = l at hread
  cases hread with
  | closed more v =>
    refine .token v ⟨⟨_, .string hbody⟩, ⟨more, by simp⟩, fun {kind u} h hu => ?_⟩ (.string hbody)
      (not_bareHex hzero)
    rw [(hlexeme h hu).1]
    exact Nat.le_refl _
  | endless t =>
    refine .fault t (.inl fun kind u h hu => ?_) ?_
    · obtain ⟨-, r, hr⟩ := hlexeme h hu
      cases hr
    · rw [List.append_nil]
      exact .endless hbody
  | backslash t =>
    refine .fault t (.inl fun kind u h hu => ?_) (.backslash hbody)
    obtain ⟨-, r, hr⟩ := hlexeme h hu
    exact absurd (List.cons.inj hr).1 (by decide)
  | escape hc more t =>
    refine .fault t (.inl fun kind u h hu => ?_) (.escape hbody hc)
    obtain ⟨-, r, hr⟩ := hlexeme h hu
    exact absurd (List.cons.inj hr).1 (by decide)

theorem all_isDigit {ds : List Char} (h : ∀ d ∈ ds, IsDigit d) : ∀ d ∈ ds, d.isDigit = true :=
  fun d hd => isDigit_iff.mpr (h d hd)

theorem takeWhile_point {ds : List Char} (h : ∀ d ∈ ds, IsDigit d) (rest : List Char) :
    (ds ++ '.' :: rest).takeWhile Char.isDigit = ds := by
  have hpoint : Char.isDigit '.' = false := by decide
  simp [List.takeWhile_append_of_pos (all_isDigit h), hpoint]

theorem dropWhile_point {ds : List Char} (h : ∀ d ∈ ds, IsDigit d) (rest : List Char) :
    (ds ++ '.' :: rest).dropWhile Char.isDigit = '.' :: rest := by
  have hpoint : Char.isDigit '.' = false := by decide
  simp [List.dropWhile_append_of_pos (all_isDigit h), hpoint]

theorem not_bareHex_of_digits {x : Char} {rest : List Char}
    (hne : rest.takeWhile isHexDigit ≠ []) : ¬BareHex ('0' :: x :: rest) := by
  rintro ⟨y, more, heq, -, hnone⟩
  obtain ⟨-, htail⟩ := List.cons.inj heq
  obtain ⟨-, rfl⟩ := List.cons.inj htail
  cases rest with
  | nil => exact hne rfl
  | cons c rest =>
    have hc : isHexDigit c = false := Bool.eq_false_iff.mpr (mt isHexDigit_iff.mp (hnone c rfl))
    exact hne (by rw [List.takeWhile_cons, if_neg (by simp [hc])])

section

variable {x : Char} (hx : x = 'x' ∨ x = 'X') {rest : List Char}

include hx

theorem length_le_hex {u : List Char} (h : Numeral u) (hu : u <+: '0' :: x :: rest) :
    u.length ≤ ('0' :: x :: rest.takeWhile isHexDigit).length := by
  have hzero : ('0' :: x :: rest).takeWhile Char.isDigit = ['0'] := by
    rcases hx with rfl | rfl <;> rfl
  cases h with
  | whole _ hds =>
    have hlength := length_le_takeWhile hu (all_isDigit hds)
    rw [hzero] at hlength
    simp only [List.length_cons, List.length_nil] at hlength ⊢
    omega
  | @fraction ds es _ hds =>
    -- The point would have to stand where the announcement goes on.
    obtain ⟨r, hr⟩ := hu
    rw [List.append_assoc, List.cons_append] at hr
    obtain rfl : ds = ['0'] := by rw [← takeWhile_point hds, hr, hzero]
    obtain ⟨-, htail⟩ := List.cons.inj hr
    obtain ⟨rfl, -⟩ := List.cons.inj htail
    rcases hx with hx | hx <;> exact absurd hx (by decide)
  | hex _ _ hds =>
    have hdigits := (List.cons_prefix_cons.mp (List.cons_prefix_cons.mp hu).2).2
    have hlength : _ ≤ (rest.takeWhile isHexDigit).length :=
      length_le_takeWhile hdigits fun d hd => isHexDigit_iff.mpr (hds d hd)
    simp only [List.length_cons]
    omega

theorem longest_hex (hne : rest.takeWhile isHexDigit ≠ []) :
    Longest ('0' :: x :: rest) ('0' :: x :: rest.takeWhile isHexDigit) := by
  have hdigits : ∀ d ∈ rest.takeWhile isHexDigit, IsHex d :=
    fun d hd => isHexDigit_iff.mp (List.all_eq_true.mp List.all_takeWhile d hd)
  refine ⟨⟨_, .number (.hex hx hne hdigits)⟩, ?_, fun {kind u} h hu => ?_⟩
  · rw [List.cons_prefix_cons, List.cons_prefix_cons]
    exact ⟨rfl, rfl, List.takeWhile_prefix _⟩
  · obtain ⟨v, rfl⟩ := h.exists_cons hu
    exact length_le_hex hx (h.of_digit (by decide)).2 hu

theorem hex_meets : Meets ('0' :: x :: rest) (hex ['0', x] rest) := by
  unfold hex
  simp only [List.isEmpty_iff]
  split
  · rename_i hempty
    have hnone : ∀ c, rest.head? = some c → ¬IsHex c := by
      intro c hc hdigit
      obtain ⟨more, rfl⟩ : ∃ more, rest = c :: more := by
        cases rest with
        | nil => cases hc
        | cons d more => exact ⟨more, by rw [Option.some.inj hc]⟩
      rw [List.takeWhile_cons, if_pos (isHexDigit_iff.mpr hdigit)] at hempty
      cases hempty
    exact .fault _ (.inr ⟨x, rest, rfl, hx, hnone⟩) (.hex hx hnone)
  · rename_i hne
    have hdigits : ∀ d ∈ rest.takeWhile isHexDigit, IsHex d :=
      fun d hd => isHexDigit_iff.mp (List.all_eq_true.mp List.all_takeWhile d hd)
    split
    · exact .token _ (longest_hex hx hne) (.number (.hex hx hne hdigits)) (not_bareHex_of_digits hne)
    · rename_i hlarge
      exact .overflow (longest_hex hx hne) hx (Number.nearestFinite?_eq_none.mp hlarge)

end

def decimalText (cs : List Char) : List Char :=
  let digits := fraction (cs.dropWhile Char.isDigit)
  cs.takeWhile Char.isDigit ++ if digits.isEmpty then [] else '.' :: digits

theorem numeral_decimalText {c : Char} {rest : List Char} (hc : IsDigit c) :
    Numeral (decimalText (c :: rest)) := by
  have hne : (c :: rest).takeWhile Char.isDigit ≠ [] := takeWhile_ne_nil (isDigit_iff.mpr hc)
  have hwhole : ∀ d ∈ (c :: rest).takeWhile Char.isDigit, IsDigit d :=
    fun d hd => isDigit_iff.mp (List.all_eq_true.mp List.all_takeWhile d hd)
  unfold decimalText
  simp only [List.isEmpty_iff]
  split
  · rw [List.append_nil]
    exact .whole hne hwhole
  · rename_i hdigits
    refine .fraction hne hwhole hdigits fun d hd => isDigit_iff.mp ?_
    unfold fraction at hd
    split at hd
    · exact List.all_eq_true.mp List.all_takeWhile d hd
    · cases hd

theorem length_le_decimal {u cs : List Char} (h : Numeral u) (hu : u <+: cs)
    (hintro : ∀ x rest, x = 'x' ∨ x = 'X' → cs ≠ '0' :: x :: rest) :
    u.length ≤ (decimalText cs).length := by
  cases h with
  | whole _ hds =>
    have hlength := length_le_takeWhile hu (all_isDigit hds)
    rw [decimalText, List.length_append]
    omega
  | @fraction ds es _ hds hne hes =>
    obtain ⟨r, rfl⟩ := hu
    have hpoint : ds ++ '.' :: es ++ r = ds ++ '.' :: (es ++ r) := by simp
    have hlength : es.length ≤ ((es ++ r).takeWhile Char.isDigit).length :=
      length_le_takeWhile (List.prefix_append es r) (all_isDigit hes)
    have hsome : (es ++ r).takeWhile Char.isDigit ≠ [] := by
      intro hnil
      rw [hnil] at hlength
      exact hne (List.length_eq_zero_iff.mp (Nat.le_zero.mp hlength))
    rw [hpoint, decimalText, takeWhile_point hds, dropWhile_point hds]
    simp only [fraction, List.isEmpty_iff, if_neg hsome, List.length_append, List.length_cons]
    omega
  | hex hx =>
    obtain ⟨r, rfl⟩ := hu
    exact absurd rfl (hintro _ _ hx)

theorem decimal_meets {c : Char} {rest : List Char} (hc : IsDigit c)
    (hintro : ∀ x more, x = 'x' ∨ x = 'X' → c :: rest ≠ '0' :: x :: more) :
    Meets (c :: rest) (decimal (c :: rest)) := by
  have hnumeral : Numeral (decimalText (c :: rest)) := numeral_decimalText hc
  refine .token _ ⟨⟨_, .number hnumeral⟩, decimal_front rfl, fun {kind u} h hu => ?_⟩ (.number hnumeral)
    (fun ⟨x, more, heq, hx, _⟩ => hintro x more hx heq)
  obtain ⟨v, rfl⟩ := h.exists_cons hu
  exact length_le_decimal (h.of_digit hc).2 hu hintro

theorem number_meets {c : Char} {rest : List Char} (hc : IsDigit c) :
    Meets (c :: rest) (number (c :: rest)) := by
  generalize hcs : c :: rest = cs
  unfold number
  split
  · exact hex_meets (.inl rfl)
  · exact hex_meets (.inr rfl)
  · rename_i hx hX
    subst hcs
    refine decimal_meets hc ?_
    rintro x more (rfl | rfl) heq
    · exact hx more heq
    · exact hX more heq

theorem read_meets (c : Char) (rest : List Char) : Meets (c :: rest) (read c rest) := by
  unfold read
  split
  · rename_i hquote
    subst hquote
    exact string_meets rest
  · rename_i hquote
    split
    · rename_i hdigit
      exact number_meets (isDigit_iff.mp hdigit)
    · rename_i hdigit
      split
      · rename_i hletter
        exact word_meets (isWordStart_iff.mp hletter)
      · rename_i hletter
        exact symbol_meets ⟨mt isWordStart_iff.mpr hletter, mt isDigit_iff.mpr hdigit, hquote⟩

structure Clear (cs : List Char) : Prop where
  blank : ∀ c, cs.head? = some c → c ≠ ' ' ∧ c ≠ '\t' ∧ c ≠ '\r' ∧ c ≠ '\n'
  comment : ¬['/', '/'] <+: cs

theorem splitGap_clear (inComment : Bool) (passed cs : List Char) :
    Clear (splitGap inComment passed cs).2 := by
  fun_induction splitGap inComment passed cs with
  | case1 => exact ⟨by simp, by simp⟩
  | case2 _ _ _ ih => exact ih
  | case3 _ _ _ _ _ _ ih => exact ih
  | case4 _ _ _ _ _ _ _ ih => exact ih
  | case5 inComment passed c rest _ hspace hcomment =>
    simp only [isSpace, Bool.or_eq_true, decide_eq_true_eq, not_or] at hspace
    constructor
    · rintro d ⟨⟩
      exact ⟨hspace.1.1.1, hspace.1.1.2, hspace.2, hspace.1.2⟩
    · intro hslashes
      obtain ⟨rfl, htail⟩ := List.cons_prefix_cons.mp hslashes
      obtain ⟨more, rfl⟩ := htail
      exact hcomment ⟨rfl, rfl⟩

end Lexeme

open Lexeme

/-- Behind `before` the text `cs` is read as these tokens, up to this error, if there is one. Blanks and
comments are passed over. What then stands at the front decides: the longest lexeme there is a token,
unless digits are missing behind the start of a hexadecimal numeral; where there is no lexeme, or where
such digits are missing, there is an error, and its cause says of which place. -/
inductive Lexes : (before cs : List Char) → List Token → Option ScanError → Prop
  | token {before gap text cs : List Char} {t : Token} {ts : List Token} {e : Option ScanError}
      (hgap : Gap (text ++ cs) false gap) (hclear : Clear (text ++ cs))
      (hlongest : Longest (text ++ cs) text) (hhex : ¬BareHex (text ++ cs))
      (hkind : OfKind t.kind text) (ht : t.Reads (before ++ gap) text)
      (h : Lexes (before ++ gap ++ text) cs ts e) : Lexes before (gap ++ (text ++ cs)) (t :: ts) e
  | fault {before gap cs front : List Char} {f : LexicalFault} (hgap : Gap cs false gap)
      (hclear : Clear cs) (hnone : NoneOf cs ∨ BareHex cs) (hcause : Blames cs f front) :
      Lexes before (gap ++ cs) [] (some (.fault f (.behind (before ++ gap ++ front))))
  | overflow {before gap cs digits : List Char} {x : Char} (hgap : Gap cs false gap)
      (hclear : Clear cs) (hlongest : Longest cs ('0' :: x :: digits)) (hx : x = 'x' ∨ x = 'X')
      (hlarge : 2 ^ 1024 - 2 ^ 970 ≤ Number.ofDigits 16 digits) :
      Lexes before (gap ++ cs) [] (some .overflow)
  | finish {before gap : List Char} (hgap : Gap [] false gap) :
      Lexes before gap [.endOfInput (.behind (before ++ gap)) (before ++ gap).length] none

namespace Scanner

variable {s : Scanner} {before gap : List Char}

theorem Behind.step_lexes (h : s.Behind (before ++ gap)) (hrest : s.rest ≠ [])
    (hgap : Gap s.rest false gap) (hclear : Clear s.rest) :
    (∃ t text, s.step = (.ok t, s.pass text) ∧
      ∀ ts e, Lexes (before ++ gap ++ text) (s.pass text).rest ts e →
        Lexes before (gap ++ s.rest) (t :: ts) e) ∨
    ∃ e s', s.step = (.error e, s') ∧ Lexes before (gap ++ s.rest) [] (some e) := by
  obtain ⟨c, rest, hc⟩ := List.exists_cons_of_ne_nil hrest
  have hmeets := read_meets c rest
  unfold Scanner.step
  rw [hc] at hgap hclear ⊢
  simp only
  generalize hread : Lexeme.read c rest = l at hmeets
  cases hmeets with
  | @token kind text value hlongest hkind hhex =>
    obtain ⟨cs, hcs⟩ := hlongest.front
    rw [← hcs] at hgap hclear hlongest hhex ⊢
    refine .inl ⟨_, text, rfl, fun ts e hlexes => ?_⟩
    have hpass : (s.pass text).rest = cs := by
      simp only [Scanner.pass, hc, ← hcs, List.drop_left]
    rw [hpass] at hlexes
    have hoffset : (s.offset : Int) = (before ++ gap).length := congrArg _ h.offset
    exact .token hgap hclear hlongest hhex hkind ⟨rfl, hkind.ne_nil, h.pos, hoffset⟩ hlexes
  | fault text hnone hcause =>
    refine .inr ⟨_, _, rfl, ?_⟩
    rw [h.pos, Position.advance_behind]
    exact .fault hgap hclear hnone hcause
  | overflow hlongest hx hlarge => exact .inr ⟨_, _, rfl, .overflow hgap hclear hlongest hx hlarge⟩

theorem Behind.stream_lexes (h : s.Behind before) (hs : s.finished = false) (given : Array Token) :
    ∃ ts e, Lexes before s.rest ts e ∧ s.stream given = ⟨given.toList ++ ts, e⟩ := by
  -- The scanner is not over yet, so it fails or gives a token.
  fun_induction Scanner.stream s given generalizing before with
  | case1 s given hnext => simp [Scanner.next, hs] at hnext
  | case2 s given e s' hnext =>
    obtain ⟨gap, hrest, hgap, hbehind⟩ := h.passGap
    have hstep : s.passGap.step = (.error e, s') := by simpa [Scanner.next, hs] using hnext
    refine ⟨[], some e, ?_, by simp⟩
    by_cases hend : s.passGap.rest = []
    · simp [hbehind.step_nil hend] at hstep
    · rcases hbehind.step_lexes hend hgap (splitGap_clear false [] s.rest) with
        ⟨t, text, htoken, -⟩ | ⟨e', s'', hfail, hlexes⟩
      · simp [htoken] at hstep
      · rw [hfail, Prod.mk.injEq, Except.error.injEq] at hstep
        rw [hrest, ← hstep.1]
        exact hlexes
  | case3 s given t s' hnext ih =>
    obtain ⟨gap, hrest, hgap, hbehind⟩ := h.passGap
    have hstep : s.passGap.step = (.ok t, s') := by simpa [Scanner.next, hs] using hnext
    by_cases hend : s.passGap.rest = []
    · rw [hbehind.step_nil hend, Prod.mk.injEq, Except.ok.injEq] at hstep
      obtain ⟨rfl, rfl⟩ := hstep
      rw [hend] at hgap
      rw [hend, List.append_nil] at hrest
      refine ⟨[.endOfInput (.behind (before ++ gap)) (before ++ gap).length], none, ?_, ?_⟩
      · rw [hrest]
        exact .finish hgap
      · rw [stream_finished rfl]
        simp
    · rcases hbehind.step_lexes hend hgap (splitGap_clear false [] s.rest) with
        ⟨t', text, htoken, hlexes⟩ | ⟨e, s'', hfail, -⟩
      · rw [htoken, Prod.mk.injEq, Except.ok.injEq] at hstep
        obtain ⟨rfl, rfl⟩ := hstep
        obtain ⟨ts, e, hmore, hstream⟩ := ih (hbehind.pass text) hs
        refine ⟨t' :: ts, e, hrest ▸ hlexes ts e hmore, ?_⟩
        rw [hstream]
        simp
      · simp [hfail] at hstep

end Scanner

theorem Lexeme.ofKind_keyword (k : Keyword) : OfKind (.keyword k) k.text.toList := by
  have hletters : ∃ c cs, k.text.toList = c :: cs ∧ IsLetter c ∧
      cs.all (fun d => IsLetter d ∨ IsDigit d) = true := by
    cases k <;> exact ⟨_, _, rfl, by decide, by decide⟩
  obtain ⟨c, cs, htext, hc, hcs⟩ := hletters
  rw [htext]
  exact .word hc (fun d hd => of_decide_eq_true (List.all_eq_true.mp hcs d hd)) (.inl ⟨k, rfl, htext⟩)

/-- The scanner recognises the longest lexeme everywhere, and faults where there is none. The text of a
lexeme alone decides its kind, which is that of a reserved word if and only if the text is one. -/
theorem TokenStream.ofSource_lexes (source : String) :
    Lexes [] source.toList (ofSource source).tokens (ofSource source).error ∧
      ∀ kind text, OfKind kind text →
        (∀ kind', OfKind kind' text → kind' = kind) ∧
          ((∃ k, kind = .keyword k) ↔ ∃ k : Keyword, k.text.toList = text) := by
  refine ⟨?_, fun kind text h => ⟨fun kind' h' => h'.unique h, ?_, ?_⟩⟩
  · have hbehind : (Scanner.ofSource source).Behind [] := ⟨rfl, rfl⟩
    obtain ⟨ts, e, hlexes, hstream⟩ := hbehind.stream_lexes rfl #[]
    have hsource : ofSource source = ⟨ts, e⟩ := hstream
    rw [hsource]
    exact hlexes
  · rintro ⟨k, rfl⟩
    cases h with
    | word _ _ hkind =>
      rcases hkind with ⟨k', -, hk'⟩ | ⟨hkind, -⟩
      · exact ⟨k', hk'⟩
      · cases hkind
  · rintro ⟨k, rfl⟩
    exact ⟨k, h.unique (ofKind_keyword k)⟩

end Scriptlet
