import Scriptlet.Proofs.LexemeBounds
import Scriptlet.Proofs.ParallelReading
import Scriptlet.Proofs.Tiling

namespace Scriptlet

def Position.down (lines : Nat) (p : Position) : Position :=
  ⟨p.line + lines, p.column⟩

theorem Position.next_down (lines : Nat) (p : Position) (c : Char) :
    (p.down lines).next c = (p.next c).down lines := by
  unfold next down
  split
  · simp only [Position.mk.injEq, and_true]
    omega
  · rfl

theorem Position.advance_down (lines : Nat) (p : Position) (cs : List Char) :
    (p.down lines).advance cs = (p.advance cs).down lines := by
  induction cs generalizing p with
  | nil => rfl
  | cons c cs ih => exact (congrArg (·.advance cs) (next_down lines p c)).trans (ih _)

theorem Position.down_none (lines : Nat) : none = (none : Option Position).map (·.down lines) := rfl

def Pairing.down (lines : Nat) : Pairing :=
  { Pairing.identity with
    position := fun p p' => p' = p.map (·.down lines)
    position_none := Position.down_none lines
    position_isSome := fun h => by rw [h, Option.isSome_map] }

namespace Lexeme

theorem splitGap_lineFeed (inComment : Bool) (passed cs ds : List Char) :
    splitGap inComment passed (cs ++ '\n' :: ds) =
      match splitGap inComment passed cs with
      | (gap, []) => splitGap false ('\n' :: gap.reverse) ds
      | (gap, c :: rest) => (gap, c :: rest ++ '\n' :: ds) := by
  fun_induction splitGap inComment passed cs with
  | case1 inComment passed => cases inComment <;> simp [splitGap, isSpace]
  | case2 passed c cs ih => simpa [splitGap] using ih
  | case3 inComment passed c cs hout hc ih => simpa [splitGap, hout, hc] using ih
  | case4 inComment passed c cs hout hc hslash ih =>
    obtain ⟨rfl, hnext⟩ := hslash
    have hnext' : (cs ++ '\n' :: ds).head? = some '/' := by rw [List.head?_append, hnext]; rfl
    simpa [splitGap, hout, hc, hnext'] using ih
  | case5 inComment passed c cs hout hc hslash =>
    have hnext (h : c = '/') : (cs ++ '\n' :: ds).head? ≠ some '/' := by
      cases cs with
      | nil => simp
      | cons d cs => simpa using fun hd => hslash ⟨h, by simp [hd]⟩
    have hnot : ¬(c = '/' ∧ (cs ++ '\n' :: ds).head? = some '/') := fun h => hnext h.1 h.2
    simp only [List.cons_append, splitGap, hout, hc, hnot, if_false, Bool.false_eq_true]

theorem splitGap_passed (inComment : Bool) (passed cs : List Char) :
    splitGap inComment passed cs =
      (passed.reverse ++ (splitGap inComment [] cs).1, (splitGap inComment [] cs).2) := by
  induction cs generalizing inComment passed with
  | nil => simp [splitGap]
  | cons c cs ih =>
    unfold splitGap
    split
    · rw [ih _ (c :: passed), ih _ [c]]
      simp
    · split
      · rw [ih _ (c :: passed), ih _ [c]]
        simp
      · split
        · rw [ih _ (c :: passed), ih _ [c]]
          simp
        · simp

end Lexeme

namespace Scanner

def joined (s : Scanner) (cs : List Char) : Scanner :=
  { s with rest := s.rest ++ '\n' :: cs }

def beyond (s : Scanner) (cs : List Char) : Scanner :=
  { s with
    rest := cs
    pos := s.pos.advance (s.rest ++ ['\n'])
    offset := s.offset + (s.rest.length + 1) }

variable {s s' : Scanner} (cs : List Char)

theorem passGap_eq {gap rest : List Char} (h : Lexeme.splitGap false [] s.rest = (gap, rest)) :
    s.passGap = { s with rest, pos := s.pos.advance gap, offset := s.offset + gap.length } := by
  simp [passGap, h]

theorem passGap_joined (h : s.passGap.rest ≠ []) :
    (s.joined cs).passGap = s.passGap.joined cs := by
  rcases hsplit : Lexeme.splitGap false [] s.rest with ⟨gap, rest⟩
  rw [passGap_eq hsplit] at h ⊢
  obtain ⟨c, rest, rfl⟩ := List.exists_cons_of_ne_nil h
  refine passGap_eq ?_
  rw [joined, Lexeme.splitGap_lineFeed, hsplit]

theorem passGap_joined_nil (h : s.passGap.rest = []) :
    (s.joined cs).passGap = (s.beyond cs).passGap := by
  rcases hsplit : Lexeme.splitGap false [] s.rest with ⟨gap, rest⟩
  obtain rfl : rest = [] := by rwa [passGap_eq hsplit] at h
  have hrest : gap = s.rest := by
    have happend := Lexeme.splitGap_append false [] s.rest
    rw [hsplit] at happend
    simpa using happend
  subst hrest
  have hjoined : Lexeme.splitGap false [] (s.joined cs).rest =
      (s.rest ++ '\n' :: (Lexeme.splitGap false [] cs).1, (Lexeme.splitGap false [] cs).2) := by
    rw [joined, Lexeme.splitGap_lineFeed, hsplit]
    exact (Lexeme.splitGap_passed _ _ _).trans (by simp)
  have hbeyond : Lexeme.splitGap false [] (s.beyond cs).rest =
      ((Lexeme.splitGap false [] cs).1, (Lexeme.splitGap false [] cs).2) := rfl
  rw [passGap_eq hjoined, passGap_eq hbeyond]
  simp only [joined, beyond, ← Position.advance_append, List.append_assoc, List.singleton_append,
    List.length_append, List.length_cons]
  congr 1
  omega

theorem beyond_passGap : s.passGap.beyond cs = s.beyond cs := by
  rcases hsplit : Lexeme.splitGap false [] s.rest with ⟨gap, rest⟩
  have hrest : gap ++ rest = s.rest := by
    have happend := Lexeme.splitGap_append false [] s.rest
    rw [hsplit] at happend
    simpa using happend
  rw [passGap_eq hsplit]
  simp only [beyond, ← hrest, ← Position.advance_append, List.append_assoc, List.length_append]
  congr 1
  omega

theorem step_joined {t : Token} (hrest : s.rest ≠ []) (h : s.step = (.ok t, s')) :
    (s.joined cs).step = (.ok t, s'.joined cs) ∧ s'.beyond cs = s.beyond cs ∧
      s'.finished = s.finished := by
  obtain ⟨c, rest, hc⟩ := List.exists_cons_of_ne_nil hrest
  have hjoined : (s.joined cs).rest = c :: (rest ++ '\n' :: cs) := by rw [joined, hc]; rfl
  unfold step at h ⊢
  rw [hc] at h
  rw [hjoined]
  simp only at h ⊢
  cases hread : Lexeme.read c rest with
  | fault | overflow => simp [hread] at h
  | token kind text value =>
    rw [hread, Prod.mk.injEq, Except.ok.injEq] at h
    obtain ⟨rfl, rfl⟩ := h
    obtain ⟨more, hmore⟩ := hc ▸ Lexeme.read_front hread
    rw [Lexeme.read_blank (by decide) hread]
    refine ⟨?_, ?_, rfl⟩
    · simp only [joined, pass, ← hmore, List.append_assoc, List.drop_left]
    · simp only [beyond, pass, ← hmore, List.drop_left, ← Position.advance_append,
        List.append_assoc, List.length_append]
      congr 1
      omega

theorem step_of_nil (h : s.rest = []) :
    s.step = (.ok (.endOfInput s.pos s.offset), { s with finished := true }) := by
  unfold step
  rw [h]

theorem stream_of_unfinished (hs : s.finished = false) (given : Array Token) :
    s.stream given =
      match s.passGap.step with
      | (.error e, _) => ⟨given.toList, some e⟩
      | (.ok t, s') => s'.stream (given.push t) := by
  have hnext : s.next = some s.passGap.step := by simp [next, hs]
  rw [stream]
  split <;> rename_i h <;> rw [hnext] at h
  · cases h
  · rw [Option.some.inj h]
  · rw [Option.some.inj h]

theorem stream_step {s' : Scanner} {t : Token} (hs : s.finished = false)
    (h : s.passGap.step = (.ok t, s')) (given : Array Token) :
    s.stream given = s'.stream (given.push t) := by
  rw [stream_of_unfinished hs, h]

theorem stream_joined {given : Array Token} {ts : List Token} {eof : Token} (hs : s.finished = false)
    (h : s.stream given = ⟨ts ++ [eof], none⟩) :
    (s.joined cs).stream given = (s.beyond cs).stream ts.toArray := by
  fun_induction Scanner.stream s given with
  | case1 s given hnext => simp [next, hs] at hnext
  | case2 s given e s' hnext => simp at h
  | case3 s given t s' hnext ih =>
    have hstep : s.passGap.step = (.ok t, s') := by simpa [next, hs] using hnext
    by_cases hend : s.passGap.rest = []
    · have hjoined := stream_of_unfinished (s := s.joined cs) hs given
      have hbeyond := stream_of_unfinished (s := s.beyond cs) hs given
      rw [step_of_nil hend, Prod.mk.injEq, Except.ok.injEq] at hstep
      obtain ⟨rfl, rfl⟩ := hstep
      have hgiven : given = ts.toArray := by
        rw [stream_finished rfl, Array.toList_push, TokenStream.mk.injEq] at h
        rw [← (List.append_inj' h.1 rfl).1]
      rw [hjoined, passGap_joined_nil cs hend, ← hgiven]
      exact hbeyond.symm
    · obtain ⟨hstep', hbeyond, hfinished⟩ := step_joined cs hend hstep
      rw [← passGap_joined cs hend] at hstep'
      rw [stream_step (s := s.joined cs) hs hstep', ← beyond_passGap, ← hbeyond]
      exact ih (hfinished.trans hs) h

structure Below (lines : Nat) (s s' : Scanner) : Prop where
  rest : s'.rest = s.rest
  pos : s'.pos = s.pos.down lines
  finished : s'.finished = s.finished

variable {lines : Nat}

theorem Below.passGap (h : s.Below lines s') : s.passGap.Below lines s'.passGap := by
  obtain ⟨hrest, hpos, hfinished⟩ := h
  rcases hsplit : Lexeme.splitGap false [] s.rest with ⟨gap, rest⟩
  rw [passGap_eq hsplit, passGap_eq (hrest ▸ hsplit)]
  exact ⟨rfl, hpos ▸ Position.advance_down lines s.pos gap, hfinished⟩

theorem Below.pass (h : s.Below lines s') (text : List Char) :
    (s.pass text).Below lines (s'.pass text) := by
  obtain ⟨hrest, hpos, hfinished⟩ := h
  refine ⟨congrArg (·.drop text.length) hrest, ?_, hfinished⟩
  exact (congrArg (·.advance text) hpos).trans (Position.advance_down lines s.pos text)

theorem Below.step (h : s.Below lines s') {t : Token} {r : Scanner} (hstep : s.step = (.ok t, r)) :
    ∃ t' r', s'.step = (.ok t', r') ∧ t.Like (.down lines) t' ∧ r.Below lines r' := by
  have hpos : some s'.pos = (some s.pos).map (·.down lines) := congrArg some h.pos
  unfold Scanner.step at hstep ⊢
  rw [h.rest]
  split at hstep
  · rw [Prod.mk.injEq, Except.ok.injEq] at hstep
    obtain ⟨rfl, rfl⟩ := hstep
    exact ⟨_, _, rfl, ⟨rfl, rfl, rfl, hpos⟩, rfl, h.pos, rfl⟩
  · split at hstep
    · rw [Prod.mk.injEq, Except.ok.injEq] at hstep
      obtain ⟨rfl, rfl⟩ := hstep
      exact ⟨_, _, rfl, ⟨rfl, rfl, rfl, hpos⟩, h.pass _⟩
    · cases hstep
    · cases hstep

theorem Below.stream {given given' : Array Token} {front ts : List Token} (h : s.Below lines s')
    (hgiven : List.Forall₂ (Token.Like (.down lines)) given.toList ts)
    (hgiven' : given'.toList = front ++ ts) (hnone : (s.stream given).error = none) :
    ∃ us, s'.stream given' = ⟨front ++ us, none⟩ ∧
      List.Forall₂ (Token.Like (.down lines)) (s.stream given).tokens us := by
  fun_induction Scanner.stream s given generalizing s' given' ts with
  | case1 s given hnext =>
    have hfinished : s.finished = true := by simpa [next] using hnext
    rw [stream_finished (h.finished.trans hfinished), hgiven']
    exact ⟨ts, rfl, hgiven⟩
  | case2 s given e r hnext => cases hnone
  | case3 s given t r hnext ih =>
    have hs : s.finished = false := by
      by_contra hfinished
      simp [next, hfinished] at hnext
    have hstep : s.passGap.step = (.ok t, r) := by simpa [next, hs] using hnext
    obtain ⟨t', r', hstep', ht, hr⟩ := h.passGap.step hstep
    rw [stream_step (h.finished.trans hs) hstep']
    have hpush : List.Forall₂ (Token.Like (.down lines)) (given.push t).toList (ts ++ [t']) := by
      rw [Array.toList_push]
      exact List.rel_append hgiven (.cons ht .nil)
    have hpush' : (given'.push t').toList = front ++ (ts ++ [t']) := by
      rw [Array.toList_push, hgiven', List.append_assoc]
    exact ih hr hpush hpush' hnone

end Scanner

namespace TokenStream

theorem ofSource_closed (source : String) :
    ∃ ts, (∀ t ∈ ts, t.kind ≠ .endOfInput) ∧ ((∃ e, ofSource source = ⟨ts, some e⟩) ∨
      ∃ eof, eof.kind = .endOfInput ∧ ofSource source = ⟨ts ++ [eof], none⟩) := by
  obtain ⟨ts, _, _, -, -, hspelled, h⟩ :=
    (Scanner.ofSource source).stream_tiles #[] [] ⟨rfl, rfl⟩ rfl
  refine ⟨ts, fun t ht => (hspelled t ht).kind, ?_⟩
  rcases h with ⟨e, hstream, -⟩ | ⟨-, hstream⟩
  · exact .inl ⟨e, hstream⟩
  · exact .inr ⟨_, rfl, hstream⟩

theorem ofSource_joined {source source' : String} {ts : List Token} {eof : Token}
    (h : ofSource source = ⟨ts ++ [eof], none⟩) (h' : (ofSource source').error = none) :
    ∃ us, ofSource (source ++ "\n" ++ source') = ⟨ts ++ us, none⟩ ∧
      List.Forall₂ (Token.Like (.down (source.toList.count '\n' + 1))) (ofSource source').tokens us := by
  let s := Scanner.ofSource source
  have hjoined : Scanner.ofSource (source ++ "\n" ++ source') = s.joined source'.toList := by
    simp [s, Scanner.ofSource, Scanner.joined]
  have hbelow : (Scanner.ofSource source').Below (source.toList.count '\n' + 1)
      (s.beyond source'.toList) := by
    refine ⟨rfl, ?_, rfl⟩
    have hbehind : s.pos.advance (source.toList ++ ['\n']) = .behind (source.toList ++ ['\n']) :=
      Position.advance_behind [] _
    change s.pos.advance (source.toList ++ ['\n']) = _
    rw [hbehind]
    simp [Position.behind, Position.down, Scanner.ofSource, Position.start]
  obtain ⟨us, hus, hlike⟩ := hbelow.stream .nil
    (show ts.toArray.toList = ts ++ [] by simp) h'
  refine ⟨us, ?_, hlike⟩
  unfold ofSource
  rw [hjoined, s.stream_joined source'.toList rfl h, hus]

end TokenStream

end Scriptlet
