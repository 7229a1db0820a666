import Scriptlet.Proofs.JoinedSources
import Scriptlet.Proofs.LexemeBounds

namespace Scriptlet

namespace Lexeme

def escapes : List (Char × Char) :=
  [('\n', 'n'), ('\t', 't'), ('\r', 'r'), ('\x00', '0'), ('"', '"'), ('\\', '\\')]

/-- Between quotes, `body` writes the characters `cs`. Quotes and backslashes are escaped. Whether a line
feed, a tab, a carriage return or a NUL is escaped is free, and free for each of them. -/
inductive Written : (cs body : List Char) → Prop
  | nil : Written [] []
  | raw {c : Char} {cs body : List Char} (hquote : c ≠ '"') (hbackslash : c ≠ '\\')
      (h : Written cs body) : Written (c :: cs) (c :: body)
  | escaped {c letter : Char} {cs body : List Char} (hc : (c, letter) ∈ escapes)
      (h : Written cs body) : Written (c :: cs) ('\\' :: letter :: body)

theorem escape?_eq_some {letter c : Char} : escape? letter = some c ↔ (c, letter) ∈ escapes := by
  unfold escape? escapes
  split <;> simp_all [eq_comm]

theorem string_of_written {cs body : List Char} (h : Written cs body) (text value rest : List Char) :
    string text value (body ++ '"' :: rest) =
      .token .string (text.reverse ++ body ++ ['"'])
        (some (.string (.ofList (value.reverse ++ cs)))) := by
  induction h generalizing text value with
  | nil => simp [string]
  | @raw c cs body hquote hbackslash _ ih =>
    have hstep : string text value (c :: (body ++ '"' :: rest)) =
        string (c :: text) (c :: value) (body ++ '"' :: rest) := by
      simp [string, hbackslash]
    rw [List.cons_append, hstep, ih]
    simp
  | @escaped c letter cs body hc _ ih =>
    have hstep : string text value ('\\' :: letter :: (body ++ '"' :: rest)) =
        string (letter :: '\\' :: text) (c :: value) (body ++ '"' :: rest) := by
      simp [string, escape?_eq_some.mpr hc]
    rw [List.cons_append, List.cons_append, hstep, ih]
    simp

theorem written_of_string {text value rest t : List Char} {kind : TokenKind} {v : Option Literal}
    (h : string text value rest = .token kind t v) :
    ∃ cs body, Written cs body ∧ t = text.reverse ++ body ++ ['"'] ∧
      v = some (.string (.ofList (value.reverse ++ cs))) := by
  fun_induction string text value rest with
  | case1 | case3 | case5 => simp at h
  | case2 text value rest =>
    simp only [token.injEq] at h
    exact ⟨[], [], .nil, by simp [← h.2.1], by simp [← h.2.2]⟩
  | case4 text value letter rest c hc ih =>
    obtain ⟨cs, body, hwritten, rfl, rfl⟩ := ih h
    exact ⟨c :: cs, '\\' :: letter :: body, .escaped (escape?_eq_some.mp hc) hwritten, by simp, by simp⟩
  | case6 text value c rest hquote hlast hescape ih =>
    obtain ⟨cs, body, hwritten, rfl, rfl⟩ := ih h
    have hbackslash : c ≠ '\\' := ne_backslash hlast hescape
    exact ⟨c :: cs, c :: body, .raw hquote hbackslash hwritten, by simp, by simp⟩

theorem string_of_read {c : Char} {rest t : List Char} {v : Option Literal}
    (h : read c rest = .token .string t v) : string ['"'] [] rest = .token .string t v := by
  unfold read at h
  split at h
  · exact h
  · split at h
    · cases number_kind h
    · split at h
      · rcases word_kind h with hkind | ⟨k, hkind, -⟩ <;> cases hkind
      · obtain ⟨-, s, hkind, -⟩ := symbol_front h
        cases hkind

end Lexeme

open Lexeme

def Token.WritesValue (t : Token) : Prop :=
  ∃ (v : String) (body : List Char), t.value = some (.string v) ∧
    t.text.toList = '"' :: body ++ ['"'] ∧ Written v.toList body

theorem Scanner.writesValue_of_next {s s' : Scanner} {t : Token} (h : s.next = some (.ok t, s'))
    (ht : t.kind = .string) : t.WritesValue := by
  rcases lexical_of_next h with ⟨pos, offset, rfl⟩ | ⟨c, rest, hread⟩
  · cases ht
  · rw [ht] at hread
    obtain ⟨cs, body, hwritten, htext, hvalue⟩ := written_of_string (string_of_read hread)
    exact ⟨.ofList cs, body, hvalue, htext, by rwa [String.toList_ofList]⟩

theorem Scanner.step_of_token {s : Scanner} {c : Char} {rest text : List Char} {kind : TokenKind}
    {value : Option Literal} (hrest : s.rest = c :: rest) (hread : read c rest = .token kind text value) :
    s.step = (.ok ⟨kind, .ofList text, s.pos, s.offset, value⟩, s.pass text) := by
  simp only [step, hrest, hread]

namespace TokenStream

theorem ofSource_written {v : String} {body : List Char} (h : Written v.toList body) :
    ofSource (.ofList ('"' :: body ++ ['"'])) =
      ⟨[⟨.string, .ofList ('"' :: body ++ ['"']), .start, 0, some (.string v)⟩,
        .endOfInput (.behind ('"' :: body ++ ['"'])) (body.length + 2)], none⟩ := by
  let text := '"' :: body ++ ['"']
  have hread : read '"' (body ++ ['"']) = .token .string text (some (.string v)) := by
    have hstring := string_of_written h ['"'] [] []
    rwa [List.reverse_nil, List.nil_append, String.ofList_toList] at hstring
  have hpass : (⟨text, .start, 0, false⟩ : Scanner).pass text =
      ⟨[], .behind text, body.length + 2, false⟩ := by
    have hlength : 0 + text.length = body.length + 2 := by simp [text]
    have hpos : Position.start.advance text = .behind text := Position.advance_behind [] text
    simp only [Scanner.pass, List.drop_length, hpos, hlength]
  -- No gap stands in front of the quote.
  have hstep : (⟨text, .start, 0, false⟩ : Scanner).passGap.step =
      (.ok ⟨.string, .ofList text, .start, 0, some (.string v)⟩,
        ⟨[], .behind text, body.length + 2, false⟩) := by
    rw [← hpass]
    exact Scanner.step_of_token (s := (⟨text, .start, 0, false⟩ : Scanner).passGap) rfl hread
  rw [ofSource, Scanner.ofSource, String.toList_ofList, Scanner.stream_step rfl hstep,
    Scanner.stream_step rfl rfl, Scanner.stream_finished rfl]
  rfl

/-- Every text is read back from each of its writings between quotes, which is one token, in front of the
end of the input. Every token of a string that is read anywhere, behind errors too, is one of the writings
of its value. -/
theorem ofSource_codec :
    (∀ (v : String) (body : List Char), Written v.toList body →
      ofSource (.ofList ('"' :: body ++ ['"'])) =
        ⟨[⟨.string, .ofList ('"' :: body ++ ['"']), .start, 0, some (.string v)⟩,
          .endOfInput (.behind ('"' :: body ++ ['"'])) (body.length + 2)], none⟩) ∧
    (∀ source, ∀ t ∈ (ofSource source).tokens, t.kind = .string → t.WritesValue) ∧
    ∀ (s s' : Scanner) (t : Token), s.next = some (.ok t, s') → t.kind = .string → t.WritesValue := by
  refine ⟨fun v body h => ofSource_written h, fun source => ?_, fun s s' t => Scanner.writesValue_of_next⟩
  exact (Scanner.ofSource source).forall_stream Scanner.writesValue_of_next #[] (by simp)

theorem ofSource_codec_lineFeeds :
    let text := ['"', '\\', '"', '\n', '\\', 'n', '"']
    let t : Token := ⟨.string, .ofList text, .start, 0, some (.string "\"\n\n")⟩
    Written "\"\n\n".toList ['\\', '"', '\n', '\\', 'n'] ∧
      ofSource (.ofList text) = ⟨[t, .endOfInput ⟨2, 4⟩ 7], none⟩ ∧ t.WritesValue := by
  intro text t
  have hwritten : Written "\"\n\n".toList ['\\', '"', '\n', '\\', 'n'] :=
    .escaped (by decide) (.raw (by decide) (by decide) (.escaped (by decide) .nil))
  have hcodec := ofSource_codec.1 _ _ hwritten
  have hsource : ofSource (.ofList text) = ⟨[t, .endOfInput ⟨2, 4⟩ 7], none⟩ := hcodec
  have ht : t ∈ (ofSource (.ofList text)).tokens := by simp [hsource]
  exact ⟨hwritten, hsource, ofSource_codec.2.1 _ t ht rfl⟩

end TokenStream

end Scriptlet
