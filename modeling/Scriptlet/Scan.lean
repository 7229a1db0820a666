import Scriptlet.Lexeme

namespace Scriptlet

inductive ScanError
  | fault (fault : LexicalFault) (pos : Position)
  | overflow

structure Scanner where
  rest : List Char
  pos : Position
  offset : Nat
  finished : Bool

namespace Scanner

def ofSource (source : String) : Scanner :=
  ⟨source.toList, .start, 0, false⟩

def pass (s : Scanner) (text : List Char) : Scanner :=
  { s with
    rest := s.rest.drop text.length
    pos := s.pos.advance text
    offset := s.offset + text.length }

def passGap (s : Scanner) : Scanner :=
  let (gap, rest) := Lexeme.splitGap false [] s.rest
  { s with rest, pos := s.pos.advance gap, offset := s.offset + gap.length }

def step (s : Scanner) : Except ScanError Token × Scanner :=
  match s.rest with
  | [] => (.ok (.endOfInput s.pos s.offset), { s with finished := true })
  | c :: rest =>
    match Lexeme.read c rest with
    | .token kind text value => (.ok ⟨kind, .ofList text, s.pos, s.offset, value⟩, s.pass text)
    | .fault fault text before => (.error (.fault fault (s.pos.advance before)), s.pass text)
    | .overflow text => (.error .overflow, s.pass text)

def next (s : Scanner) : Option (Except ScanError Token × Scanner) :=
  if s.finished then none else some s.passGap.step

def remaining (s : Scanner) : Nat :=
  s.rest.length + if s.finished then 0 else 1

theorem remaining_passGap_le (s : Scanner) : s.passGap.remaining ≤ s.remaining := by
  have h := congrArg List.length (Lexeme.splitGap_append false [] s.rest)
  simp only [List.length_append, List.reverse_nil, List.nil_append] at h
  exact Nat.add_le_add_right (by simp only [passGap]; omega) _

theorem remaining_step_lt {s s' : Scanner} {t : Token} (hs : s.finished = false)
    (h : s.step = (.ok t, s')) : s'.remaining < s.remaining := by
  unfold step at h
  split at h
  · rename_i hr
    simp only [Prod.mk.injEq] at h
    simp [← h.2, remaining, hr, hs]
  · rename_i c rest hr
    split at h
    · rename_i text _ ht
      simp only [Prod.mk.injEq] at h
      have hl := List.length_pos_iff.mpr (Lexeme.read_text_ne_nil ht)
      simp only [← h.2, remaining, pass, hr, List.length_drop, List.length_cons]
      omega
    · simp at h
    · simp at h

theorem remaining_next_lt {s s' : Scanner} {t : Token} (h : s.next = some (.ok t, s')) :
    s'.remaining < s.remaining := by
  unfold next at h
  split at h
  · simp at h
  · rename_i hf
    exact Nat.lt_of_lt_of_le (remaining_step_lt (by simpa [passGap] using hf) (Option.some.inj h))
      (remaining_passGap_le s)

end Scanner

/-- A sequence of tokens and the error that cuts it short, if one does. -/
structure TokenStream where
  tokens : List Token
  error : Option ScanError

def Scanner.stream (s : Scanner) (given : Array Token) : TokenStream :=
  match _h : s.next with
  | none => ⟨given.toList, none⟩
  | some (.error e, _) => ⟨given.toList, some e⟩
  | some (.ok t, s') => s'.stream (given.push t)
termination_by s.remaining
decreasing_by exact remaining_next_lt _h

def TokenStream.ofSource (source : String) : TokenStream :=
  (Scanner.ofSource source).stream #[]

end Scriptlet
