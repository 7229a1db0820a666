import Scriptlet.Scan
import Scriptlet.Proofs.LexemeText

namespace Scriptlet

namespace Position

def behind (cs : List Char) : Position :=
  ⟨1 + cs.count '\n', 1 + (cs.reverse.takeWhile (· ≠ '\n')).length⟩

theorem next_behind (cs : List Char) (c : Char) : (behind cs).next c = behind (cs ++ [c]) := by
  unfold next behind
  by_cases hc : c = '\n'
  · subst hc
    simp
    omega
  · simp [hc]
    omega

theorem advance_behind (cs ds : List Char) : (behind cs).advance ds = behind (cs ++ ds) := by
  induction ds generalizing cs with
  | nil => rw [List.append_nil]; rfl
  | cons d ds ih =>
    have hstep : (behind cs).advance (d :: ds) = ((behind cs).next d).advance ds := rfl
    rw [hstep, next_behind, ih, List.append_assoc, List.singleton_append]

end Position

structure Token.Reads (t : Token) (before text : List Char) : Prop where
  text_eq : t.text = .ofList text
  ne_nil : text ≠ []
  pos_eq : t.pos = .behind before
  offset_eq : t.offset = before.length

/-- Behind `before` stands `cs`: the tokens `ts`, a gap in front of each of them, and `rest`. -/
inductive Tiles : (before cs : List Char) → (ts : List Token) → (rest : List Char) → Prop
  | nil {before cs : List Char} : Tiles before cs [] cs
  | cons {before gap text cs rest : List Char} {t : Token} {ts : List Token}
      (hgap : Gap (text ++ cs) false gap) (ht : t.Reads (before ++ gap) text)
      (h : Tiles (before ++ gap ++ text) cs ts rest) :
      Tiles before (gap ++ (text ++ cs)) (t :: ts) rest

def Token.StandsIn (source : List Char) (t : Token) : Prop :=
  ∃ n : Nat, n ≤ source.length ∧ t.offset = n ∧ t.pos = .behind (source.take n) ∧
    t.text.toList = (source.drop n).take t.text.length

theorem Token.Reads.standsIn {t : Token} {before text : List Char} (h : t.Reads before text)
    (rest : List Char) : t.StandsIn (before ++ (text ++ rest)) := by
  refine ⟨before.length, ?_, h.offset_eq, ?_, ?_⟩
  · simp
  · rw [List.take_left, h.pos_eq]
  · rw [List.drop_left, h.text_eq]
    simp

theorem Tiles.standsIn {before cs rest : List Char} {ts : List Token}
    (h : Tiles before cs ts rest) : ∀ t ∈ ts, t.StandsIn (before ++ cs) := by
  induction h with
  | nil => exact List.forall_mem_nil _
  | @cons before gap text cs rest t ts _ ht _ ih =>
    rw [← List.append_assoc before gap]
    rw [List.append_assoc (before ++ gap)] at ih
    exact List.forall_mem_cons.mpr ⟨ht.standsIn cs, ih⟩

def Token.Lexical (t : Token) : Prop :=
  ∃ c rest, Lexeme.read c rest = .token t.kind t.text.toList t.value

namespace Scanner

structure Behind (s : Scanner) (before : List Char) : Prop where
  pos : s.pos = .behind before
  offset : s.offset = before.length

inductive Fails (before : List Char) : (rest : List Char) → ScanError → Prop
  | fault {c : Char} {rest text front : List Char} {f : LexicalFault}
      (h : Lexeme.read c rest = .fault f text front) :
      Fails before (c :: rest) (.fault f (.behind (before ++ front)))
  | overflow {c : Char} {rest text : List Char} (h : Lexeme.read c rest = .overflow text) :
      Fails before (c :: rest) .overflow

variable {s : Scanner} {before : List Char}

theorem Behind.passGap (h : s.Behind before) :
    ∃ gap, s.rest = gap ++ s.passGap.rest ∧ Gap s.passGap.rest false gap ∧
      s.passGap.Behind (before ++ gap) := by
  obtain ⟨gap, rest, hsplit, hrest, hgap⟩ := Lexeme.splitGap_gap false [] s.rest
  have hpass : s.passGap =
      { s with rest, pos := s.pos.advance gap, offset := s.offset + gap.length } := by
    simp [Scanner.passGap, hsplit]
  rw [hpass]
  refine ⟨gap, hrest, hgap, ?_, ?_⟩
  · rw [h.pos, Position.advance_behind]
  · rw [h.offset, List.length_append]

theorem Behind.pass (h : s.Behind before) (text : List Char) :
    (s.pass text).Behind (before ++ text) := by
  constructor
  · exact (congrArg (·.advance text) h.pos).trans (Position.advance_behind before text)
  · exact (congrArg (· + text.length) h.offset).trans List.length_append.symm

theorem Behind.step_nil (h : s.Behind before) (hrest : s.rest = []) :
    s.step = (.ok (.endOfInput (.behind before) before.length), { s with finished := true }) := by
  unfold Scanner.step
  rw [hrest, h.pos, h.offset]

theorem Behind.step_cons (h : s.Behind before) (hrest : s.rest ≠ []) :
    (∃ t text, s.step = (.ok t, s.pass text) ∧ s.rest = text ++ (s.pass text).rest ∧
      t.Reads before text ∧ t.Spelled) ∨
    ∃ e s', s.step = (.error e, s') ∧ Fails before s.rest e := by
  obtain ⟨c, rest, hc⟩ := List.exists_cons_of_ne_nil hrest
  unfold Scanner.step
  rw [hc]
  simp only
  split
  · rename_i kind text value hread
    obtain ⟨hkind, hspelling⟩ := Lexeme.read_spelling hread
    obtain ⟨cs, hcs⟩ := Lexeme.read_front hread
    refine .inl ⟨_, text, rfl, ?_, ⟨rfl, Lexeme.read_text_ne_nil hread, h.pos, ?_⟩, hkind, hspelling⟩
    · simp only [Scanner.pass, hc, ← hcs, List.drop_left]
    · rw [h.offset]
  · rename_i f text front hread
    refine .inr ⟨_, _, rfl, ?_⟩
    rw [h.pos, Position.advance_behind]
    exact .fault hread
  · rename_i text hread
    exact .inr ⟨_, _, rfl, .overflow hread⟩

theorem stream_finished (hs : s.finished = true) (given : Array Token) :
    s.stream given = ⟨given.toList, none⟩ := by
  unfold Scanner.stream
  split
  · rfl
  all_goals
    rename_i hnext
    simp [Scanner.next, hs] at hnext

theorem lexical_of_next {s s' : Scanner} {t : Token} (h : s.next = some (.ok t, s')) :
    (∃ pos offset, t = .endOfInput pos offset) ∨ t.Lexical := by
  unfold next at h
  split at h
  · cases h
  · have hstep := Option.some.inj h
    unfold step at hstep
    split at hstep
    · obtain ⟨ht, -⟩ := Prod.mk.inj hstep
      exact .inl ⟨_, _, (Except.ok.inj ht).symm⟩
    · split at hstep
      · rename_i hread
        obtain ⟨ht, -⟩ := Prod.mk.inj hstep
        obtain rfl := Except.ok.inj ht
        exact .inr ⟨_, _, by rwa [String.toList_ofList]⟩
      · cases (Prod.mk.inj hstep).1
      · cases (Prod.mk.inj hstep).1

theorem forall_stream {P : Token → Prop}
    (hnext : ∀ {s s' : Scanner} {t : Token}, s.next = some (.ok t, s') → P t) (s : Scanner)
    (given : Array Token) (hgiven : ∀ t ∈ given.toList, P t) : ∀ t ∈ (s.stream given).tokens, P t := by
  fun_induction Scanner.stream s given with
  | case1 => exact hgiven
  | case2 => exact hgiven
  | case3 s given t s' hstep ih =>
    apply ih
    rw [Array.toList_push, List.forall_mem_append, List.forall_mem_singleton]
    exact ⟨hgiven, hnext hstep⟩

theorem stream_tiles (s : Scanner) (given : Array Token) (before : List Char) (h : s.Behind before)
    (hs : s.finished = false) :
    ∃ ts gap rest, Tiles before s.rest ts (gap ++ rest) ∧ Gap rest false gap ∧ (∀ t ∈ ts, t.Spelled) ∧
      ((∃ e, s.stream given = ⟨given.toList ++ ts, some e⟩ ∧
          ∃ front, before ++ s.rest = front ++ rest ∧ Fails front rest e) ∨
        (rest = [] ∧ s.stream given = ⟨given.toList ++ ts ++
          [.endOfInput (.behind (before ++ s.rest)) (before ++ s.rest).length], none⟩)) := by
  -- With each token the scanner passes a gap and the text of the token.
  fun_induction Scanner.stream s given generalizing before with
  | case1 s given hnext => simp [Scanner.next, hs] at hnext
  | case2 s given e s' hnext =>
    obtain ⟨gap, hrest, hgap, hbehind⟩ := h.passGap
    have hstep : s.passGap.step = (.error e, s') := by simpa [Scanner.next, hs] using hnext
    refine ⟨[], gap, s.passGap.rest, hrest ▸ .nil, hgap, List.forall_mem_nil _,
      .inl ⟨e, by simp, before ++ gap, ?_, ?_⟩⟩
    · rw [hrest, List.append_assoc]
    · by_cases hend : s.passGap.rest = []
      · simp [hbehind.step_nil hend] at hstep
      · rcases hbehind.step_cons hend with ⟨t, text, htoken, -⟩ | ⟨e', s'', hfail, hfails⟩
        · simp [htoken] at hstep
        · rw [hfail, Prod.mk.injEq, Except.error.injEq] at hstep
          exact hstep.1 ▸ hfails
  | case3 s given t s' hnext ih =>
    obtain ⟨gap, hrest, hgap, hbehind⟩ := h.passGap
    have hstep : s.passGap.step = (.ok t, s') := by simpa [Scanner.next, hs] using hnext
    by_cases hend : s.passGap.rest = []
    · rw [hbehind.step_nil hend, Prod.mk.injEq, Except.ok.injEq] at hstep
      obtain ⟨rfl, rfl⟩ := hstep
      rw [hend, List.append_nil] at hrest
      refine ⟨[], gap, [], ?_, hend ▸ hgap, List.forall_mem_nil _, .inr ⟨rfl, ?_⟩⟩
      · rw [List.append_nil, hrest]
        exact .nil
      · rw [stream_finished rfl, hrest]
        simp
    · rcases hbehind.step_cons hend with
        ⟨t', text, htoken, htext, hreads, hspelled⟩ | ⟨e, s'', hfail, -⟩
      · rw [htoken, Prod.mk.injEq, Except.ok.injEq] at hstep
        obtain ⟨rfl, rfl⟩ := hstep
        obtain ⟨ts, gap', rest, htiles, hgap', hts, hend'⟩ :=
          ih (before ++ gap ++ text) (hbehind.pass text) hs
        have hsource : before ++ s.rest = before ++ gap ++ text ++ (s.passGap.pass text).rest := by
          rw [hrest, htext]
          simp
        refine ⟨t' :: ts, gap', rest, ?_, hgap', List.forall_mem_cons.mpr ⟨hspelled, hts⟩, ?_⟩
        · rw [hrest, htext]
          exact .cons (htext ▸ hgap) hreads htiles
        · rw [hsource]
          simpa using hend'
      · simp [hfail] at hstep

end Scanner

/-- The tokens of a source tile it, up to the end or to a place where none can be read: between them
are gaps alone. Without an error an end of the input comes last, and nowhere else. -/
theorem TokenStream.ofSource_tiles (source : String) :
    (∀ e, (ofSource source).error = some e →
      (∃ rest, Tiles [] source.toList (ofSource source).tokens rest) ∧
        ∀ t ∈ (ofSource source).tokens, t.kind ≠ .endOfInput ∧ t.StandsIn source.toList) ∧
    ((ofSource source).error = none →
      ∃ ts gap, (ofSource source).tokens =
          ts ++ [.endOfInput (.behind source.toList) source.toList.length] ∧
        Tiles [] source.toList ts gap ∧ Gap [] false gap ∧
        ∀ t ∈ ts, t.kind ≠ .endOfInput ∧ t.StandsIn source.toList) := by
  have hbehind : (Scanner.ofSource source).Behind [] := ⟨rfl, rfl⟩
  obtain ⟨ts, gap, rest, htiles, hgap, hspelled, h⟩ :=
    (Scanner.ofSource source).stream_tiles #[] [] hbehind rfl
  have hts : ∀ t ∈ ts, t.kind ≠ .endOfInput ∧ t.StandsIn source.toList :=
    fun t ht => ⟨(hspelled t ht).kind, htiles.standsIn t ht⟩
  rcases h with ⟨e, hstream, -⟩ | ⟨rfl, hstream⟩
  · replace hstream : ofSource source = ⟨ts, some e⟩ := hstream
    rw [hstream]
    exact ⟨fun _ _ => ⟨⟨_, htiles⟩, hts⟩, nofun⟩
  · replace hstream : ofSource source =
        ⟨ts ++ [.endOfInput (.behind source.toList) source.toList.length], none⟩ := hstream
    rw [hstream]
    rw [List.append_nil] at htiles
    exact ⟨nofun, fun _ => ⟨ts, gap, rfl, htiles, hgap, hts⟩⟩

end Scriptlet
