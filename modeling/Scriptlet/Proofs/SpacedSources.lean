import Scriptlet.Proofs.JoinedSources
import Scriptlet.Proofs.Layout

namespace Scriptlet

inductive Spacing : List Char → Prop
  | nil : Spacing []
  | blank {c : Char} {cs : List Char} (hc : Lexeme.isSpace c) (h : Spacing cs) : Spacing (c :: cs)
  | comment {line cs : List Char} (hline : '\n' ∉ line) (h : Spacing cs) :
      Spacing ('/' :: '/' :: (line ++ '\n' :: cs))

structure Separates (gap : List Char) : Prop where
  spacing : Spacing gap
  opens : ∃ c ∈ gap.head?, Lexeme.isSpace c

/-- The texts of the tokens in their order, held apart. Behind the last one there may be nothing. -/
inductive Spaced : List Token → List Char → Prop
  | nil : Spaced [] []
  | cons (t : Token) {ts : List Token} {gap cs : List Char}
      (hgap : Separates gap ∨ ts = [] ∧ gap = []) (h : Spaced ts cs) :
      Spaced (t :: ts) (t.text.toList ++ (gap ++ cs))

namespace Lexeme

theorem splitGap_comment {line : List Char} (hline : '\n' ∉ line) (passed cs : List Char) :
    splitGap true passed (line ++ '\n' :: cs) =
      splitGap false ('\n' :: (line.reverse ++ passed)) cs := by
  induction line generalizing passed with
  | nil => simp [splitGap]
  | cons c line ih =>
    obtain ⟨hc, hline⟩ := List.ne_and_not_mem_of_not_mem_cons hline
    simp [splitGap, Ne.symm hc, ih hline]

theorem splitGap_spacing {gap : List Char} (h : Spacing gap) (passed cs : List Char) :
    splitGap false passed (gap ++ cs) = splitGap false (gap.reverse ++ passed) cs := by
  induction h generalizing passed with
  | nil => rfl
  | blank hc _ ih => simp [splitGap, hc, ih]
  | @comment line gap hline _ ih =>
    have hslash : isSpace '/' = false := by decide
    have hopen : splitGap false passed ('/' :: '/' :: (line ++ '\n' :: (gap ++ cs))) =
        splitGap true ('/' :: '/' :: passed) (line ++ '\n' :: (gap ++ cs)) := by
      simp [splitGap, hslash]
    simp only [List.cons_append, List.append_assoc, hopen]
    rw [splitGap_comment hline, ih]
    simp

theorem splitGap_front {gap cs : List Char} (h : Spacing gap)
    (hcs : cs = [] ∨ ∃ c rest, cs = c :: rest ∧ isSpace c = false ∧ (c = '/' → rest.head? ≠ some '/')) :
    splitGap false [] (gap ++ cs) = (gap, cs) := by
  rw [splitGap_spacing h]
  rcases hcs with rfl | ⟨c, rest, rfl, hblank, hslash⟩
  · simp [splitGap]
  · have hnone : ¬(c = '/' ∧ rest.head? = some '/') := fun h => hslash h.1 h.2
    simp [splitGap, hblank, hnone]

end Lexeme

theorem Scanner.step_lexical {s : Scanner} {t : Token} {gap ds : List Char} (ht : t.Lexical)
    (hgap : Spacing gap) (hds : ∀ b ∈ ds.head?, Lexeme.isSpace b)
    (hrest : s.rest = gap ++ (t.text.toList ++ ds)) :
    ∃ u s', s.passGap.step = (.ok u, s') ∧ t.Agrees u ∧ s'.rest = ds ∧ s'.finished = s.finished := by
  obtain ⟨c, rest, hread⟩ := ht
  obtain ⟨more, htext, hagain⟩ := Lexeme.read_again hread
  obtain ⟨hblank, hopens⟩ := Lexeme.read_opens hread
  have hslash (hc : c = '/') : (more ++ ds).head? ≠ some '/' := by
    obtain rfl : more = [] := (List.cons.inj (htext.symm.trans (hopens hc))).2
    intro hhead
    cases hds '/' hhead
  have hsplit : Lexeme.splitGap false [] s.rest = (gap, t.text.toList ++ ds) := by
    rw [hrest]
    refine Lexeme.splitGap_front hgap (.inr ⟨c, more ++ ds, ?_, hblank, hslash⟩)
    rw [htext, List.cons_append]
  have hpass := passGap_eq hsplit
  have hfront : s.passGap.rest = c :: (more ++ ds) := by rw [hpass, htext, List.cons_append]
  refine ⟨⟨t.kind, t.text, s.passGap.pos, s.passGap.offset, t.value⟩,
    s.passGap.pass t.text.toList, ?_, ⟨rfl, rfl, rfl⟩, ?_, rfl⟩
  · unfold step
    rw [hfront]
    simp only [hagain ds hds, String.ofList_toList]
  · change s.passGap.rest.drop t.text.toList.length = ds
    rw [hpass, List.drop_left]

theorem Scanner.stream_spaced {s : Scanner} {ts : List Token} {cs gap : List Char}
    (hcs : Spaced ts cs) (hts : ∀ t ∈ ts, t.Lexical) (hs : s.finished = false) (hgap : Spacing gap)
    (hrest : s.rest = gap ++ cs) (given : Array Token) :
    ∃ us eof, s.stream given = ⟨given.toList ++ us ++ [eof], none⟩ ∧
      List.Forall₂ Token.Agrees ts us ∧ eof.kind = .endOfInput := by
  induction hcs generalizing s gap given with
  | nil =>
    have hsplit := Lexeme.splitGap_front hgap (.inl rfl)
    rw [← hrest] at hsplit
    have hstep := step_of_nil (congrArg Scanner.rest (passGap_eq hsplit))
    have hstream : s.stream given =
        ⟨given.toList ++ [] ++ [.endOfInput s.passGap.pos s.passGap.offset], none⟩ := by
      rw [stream_step hs hstep, stream_finished rfl, Array.toList_push, List.append_nil]
    exact ⟨[], _, hstream, .nil, rfl⟩
  | @cons t ts next cs hnext hspaced ih =>
    obtain ⟨ht, hts⟩ := List.forall_mem_cons.mp hts
    have hspacing : Spacing next := by
      rcases hnext with hnext | ⟨-, rfl⟩
      · exact hnext.spacing
      · exact .nil
    -- Behind the lexeme there is a blank or nothing, so it is not read any further.
    have hopens : ∀ b ∈ (next ++ cs).head?, Lexeme.isSpace b := by
      rcases hnext with ⟨-, c, hc, hblank⟩ | ⟨rfl, rfl⟩
      · rw [List.head?_append, Option.mem_def.mp hc]
        intro b hb
        rwa [← Option.some.inj hb]
      · cases hspaced
        simp
    obtain ⟨u, s', hstep, hu, hrest', hfinished⟩ := step_lexical ht hgap hopens hrest
    obtain ⟨us, eof, hstream, hus, heof⟩ :=
      ih hts (hfinished.trans hs) hspacing hrest' (given.push u)
    refine ⟨u :: us, eof, ?_, .cons hu hus, heof⟩
    rw [stream_step hs hstep, hstream]
    simp

namespace TokenStream

theorem lexical_of_ofSource {source : String} {ts : List Token} {eof : Token}
    (h : ofSource source = ⟨ts ++ [eof], none⟩) : ∀ t ∈ ts, t.Lexical := by
  obtain ⟨ts', hts', ⟨e, hstream⟩ | ⟨eof', -, hstream⟩⟩ := ofSource_closed source
  · rw [h] at hstream
    cases hstream
  · rw [h, mk.injEq] at hstream
    obtain ⟨rfl, -⟩ := List.append_inj' hstream.1 rfl
    intro t ht
    have hread := (Scanner.ofSource source).forall_stream Scanner.lexical_of_next #[] (by simp) t
      (show t ∈ (ofSource source).tokens by simp [h, ht])
    rcases hread with ⟨pos, offset, rfl⟩ | hread
    · exact (hts' _ ht rfl).elim
    · exact hread

theorem ofSource_of_spaced {source : String} {ts : List Token} {gap cs : List Char}
    (hts : ∀ t ∈ ts, t.Lexical) (hgap : Spacing gap) (hcs : Spaced ts cs)
    (hsource : source.toList = gap ++ cs) :
    ∃ us eof, ofSource source = ⟨us ++ [eof], none⟩ ∧ List.Forall₂ Token.Agrees ts us ∧
      eof.kind = .endOfInput :=
  (Scanner.ofSource source).stream_spaced hcs hts rfl hgap hsource #[]

/-- The layout of a source does not matter for its tokens. Their texts in the same order, with any
spacing in front and spacing that opens with a blank between any two of them, are read as tokens of the
same kinds, texts and values, and the end of the input. The text of each of them alone is read as that
token alone. -/
theorem ofSource_spaced {source : String} {ts : List Token} {eof : Token}
    (h : ofSource source = ⟨ts ++ [eof], none⟩) :
    (∀ gap cs, Spacing gap → Spaced ts cs →
      ∃ us eof', ofSource (.ofList (gap ++ cs)) = ⟨us ++ [eof'], none⟩ ∧
        List.Forall₂ Token.Agrees ts us ∧ eof'.kind = .endOfInput) ∧
    ∀ t ∈ ts, ∃ u eof', ofSource t.text = ⟨[u, eof'], none⟩ ∧ t.Agrees u ∧
      eof'.kind = .endOfInput := by
  have hts := lexical_of_ofSource h
  refine ⟨fun gap cs hgap hcs => ofSource_of_spaced hts hgap hcs String.toList_ofList, ?_⟩
  intro t ht
  have halone : Spaced [t] (t.text.toList ++ ([] ++ [])) := .cons t (.inr ⟨rfl, rfl⟩) .nil
  obtain ⟨us, eof', hstream, hus, heof⟩ :=
    ofSource_of_spaced (List.forall_mem_singleton.mpr (hts t ht)) .nil halone
      (List.append_nil t.text.toList).symm
  obtain ⟨u, _, hu, hnil, rfl⟩ := List.forall₂_cons_left_iff.mp hus
  obtain rfl := List.forall₂_nil_left_iff.mp hnil
  exact ⟨u, eof', hstream, hu, heof⟩

theorem ofSource_spaced_division :
    let ts : List Token := [⟨.identifier, "a", ⟨1, 1⟩, 0, none⟩, ⟨.symbol .slash, "/", ⟨1, 2⟩, 1, none⟩,
      ⟨.identifier, "b", ⟨1, 3⟩, 2, none⟩]
    ofSource "a/b" = ⟨ts ++ [.endOfInput ⟨1, 4⟩ 3], none⟩ ∧
      ∃ us eof', ofSource "//x\na /\n//y\nb " = ⟨us ++ [eof'], none⟩ ∧
        List.Forall₂ Token.Agrees ts us ∧ eof'.kind = .endOfInput := by
  intro ts
  have hread : ofSource "a/b" = ⟨ts ++ [.endOfInput ⟨1, 4⟩ 3], none⟩ := by
    unfold ofSource
    rw [Scanner.stream_step rfl rfl, Scanner.stream_step rfl rfl, Scanner.stream_step rfl rfl,
      Scanner.stream_step rfl rfl, Scanner.stream_finished rfl]
    rfl
  have hblank (c : Char) (hc : Lexeme.isSpace c) : Separates [c] :=
    ⟨.blank hc .nil, c, rfl, hc⟩
  have hcomment (c : Char) (hc : '\n' ∉ [c]) : Spacing ['/', '/', c, '\n'] := .comment hc .nil
  have hbetween : Separates "\n//y\n".toList :=
    ⟨.blank rfl (hcomment 'y' (by decide)), '\n', rfl, rfl⟩
  exact ⟨hread, (ofSource_spaced hread).1 _ _ (hcomment 'x' (by decide)) (.cons _ (.inl (hblank ' ' rfl))
    (.cons _ (.inl hbetween) (.cons _ (.inl (hblank ' ' rfl)) .nil)))⟩

end TokenStream

end Scriptlet
