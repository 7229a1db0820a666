import Scriptlet.Proofs.NumberRange
import Scriptlet.Proofs.Sessions
import Scriptlet.Proofs.Tiling
import Scriptlet.Proofs.TokenOrigins
import Scriptlet.Session

namespace Scriptlet

def Position.IsIn (source : List Char) (p : Position) : Prop :=
  ∃ n ≤ source.length, p = .behind (source.take n)

/-- The scanner meets a hexadecimal literal that is too large for a number, right behind the tokens
of the source and a gap. -/
def Lexeme.MeetsTooLarge (source : String) : Prop :=
  ∃ gap cs digits, Tiles [] source.toList (TokenStream.ofSource source).tokens (gap ++ cs) ∧
    Gap cs false gap ∧ StartsHex cs digits ∧ 2 ^ 1024 - 2 ^ 970 ≤ Number.ofDigits 16 digits

def Token.Placed (source : String) (t : Token) : Prop :=
  t.pos.IsIn source.toList ∧ (t.kind ≠ .endOfInput → t.Spelled)

def ScanError.Placed (source : String) : ScanError → Prop
  | fault _ pos => pos.IsIn source.toList
  | overflow => Lexeme.MeetsTooLarge source

theorem Position.isIn_append (front rest : List Char) : (behind front).IsIn (front ++ rest) := by
  refine ⟨front.length, ?_, ?_⟩
  · simp
  · rw [List.take_left]

theorem Token.StandsIn.isIn {source : List Char} {t : Token} (h : t.StandsIn source) :
    t.pos.IsIn source := by
  obtain ⟨n, hn, -, hpos, -⟩ := h
  exact ⟨n, hn, hpos⟩

theorem TokenStream.ofSource_consists (source : String) :
    (ofSource source).Consists (Token.Placed source) (ScanError.Placed source) := by
  have hbehind : (Scanner.ofSource source).Behind [] := ⟨rfl, rfl⟩
  obtain ⟨ts, gap, rest, htiles, hgap, hspelled, h⟩ :=
    (Scanner.ofSource source).stream_tiles #[] [] hbehind rfl
  have hts : ∀ t ∈ ts, t.Placed source :=
    fun t ht => ⟨(htiles.standsIn t ht).isIn, fun _ => hspelled t ht⟩
  -- The scanner fails at some place, or it reaches the end of the source.
  rcases h with ⟨e, hstream, front, hsource, hfails⟩ | ⟨-, hstream⟩
  · replace hstream : ofSource source = ⟨ts, some e⟩ := hstream
    replace hsource : source.toList = front ++ rest := hsource
    have he : e.Placed source := by
      cases hfails with
      | fault hread =>
        obtain ⟨back, hback⟩ := Lexeme.read_fault_front hread
        rw [ScanError.Placed, hsource, ← hback, ← List.append_assoc]
        exact Position.isIn_append _ _
      | overflow hread =>
        obtain ⟨digits, hhex, hnone⟩ := Lexeme.read_overflow hread
        refine ⟨gap, _, digits, ?_, hgap, hhex, Number.nearestFinite?_eq_none.mp hnone⟩
        rw [hstream]
        exact htiles
    rw [hstream]
    exact ⟨hts, fun _ he' => Option.some.inj he' ▸ he, nofun⟩
  · replace hstream : ofSource source =
        ⟨ts ++ [.endOfInput (.behind source.toList) source.toList.length], none⟩ := hstream
    rw [hstream]
    refine ⟨fun t ht => ?_, nofun, fun _ => ⟨_, List.getLast?_concat, rfl⟩⟩
    rcases List.mem_append.mp ht with ht | ht
    · exact hts t ht
    · obtain rfl := List.mem_singleton.mp ht
      refine ⟨?_, fun hkind => absurd rfl hkind⟩
      have hend := Position.isIn_append source.toList []
      rwa [List.append_nil] at hend

def Diagnostic.Placed (source : String) (d : Diagnostic) : Prop :=
  ∃ pos : Position, pos.IsIn source.toList ∧ d.line = some pos.line ∧ d.column = some pos.column

def Failure.Placed (source : String) : Failure → Prop
  | diagnosed d | sourceTooDeep d | callsTooDeep d => d.Placed source
  | numberTooLarge => Lexeme.MeetsTooLarge source
  | _ => False

theorem Diagnostic.placed_placed {source : String} {pos : Position} (h : pos.IsIn source.toList)
    (kind : ErrorKind) (detail : String) : (placed kind detail (some pos)).Placed source :=
  ⟨pos, h, rfl, rfl⟩

theorem ParseError.Located.failure {source : String} {e : ParseError}
    (h : e.Located (Token.Placed source) (ScanError.Placed source)) : e.failure.Placed source := by
  cases e with
  | scan e =>
    cases e with
    | fault f pos => exact Diagnostic.placed_placed h _ _
    | overflow => exact h
  | fault f pos | nesting limit pos | exhausted pos =>
    obtain ⟨t, ht, rfl⟩ := h
    exact Diagnostic.placed_placed ht.1 _ _

def Stop.Placed (source : String) : Stop → Prop
  | error fault pos => fault.Regular ∧ ∃ p : Position, p.IsIn source.toList ∧ pos = some p
  | _ => False

theorem Stop.Settled.placed {source : String} {stop : Stop}
    (h : stop.Settled fun t => t.Placed source ∧ t.kind ≠ .endOfInput) (hends : stop ≠ .endless) :
    stop.Placed source := by
  obtain ⟨hlocated, hroom⟩ := h
  cases stop with
  | error fault pos =>
    obtain ⟨hregular, t, ht, rfl⟩ := hlocated
    exact ⟨hregular, t.pos, ht.1.1, rfl⟩
  | unknownOperator op =>
    obtain ⟨t, ht, hspelled⟩ := hlocated
    exact absurd (ht.1.2 ht.2) hspelled
  | exhausted => exact absurd rfl hroom
  | endless => exact absurd rfl hends

theorem Stop.Placed.failure {source : String} {stop : Stop} (h : stop.Placed source) :
    stop.failure.Placed source := by
  cases stop with
  | error fault pos =>
    obtain ⟨-, p, hp, rfl⟩ := h
    cases fault <;> exact Diagnostic.placed_placed hp _ _
  | _ => exact h.elim

namespace Program

theorem run_placed {source : String} {p : Program} (limits : Limits) (clock : Clock)
    (hp : ofTokens limits.grammarRoom limits.maxNesting (.ofSource source) = .ok p) :
    let root := (Machine.initial clock).openRoot
    let result := (run limits p.statements root.1 root.2).1
    (∀ v, result = .ok v → v.kind ≠ .returned) ∧
      ∀ stop, result = .error stop → stop ≠ .endless → stop.Placed source := by
  intro root result
  have hformed := ofTokens_located limits.grammarRoom limits.maxNesting
    (TokenStream.ofSource_consists source)
  rw [hp] at hformed
  obtain ⟨ts, -, -, -, hmeets, -⟩ :=
    follows limits (List.mem_singleton_self [0]) hformed root.2 (closed_openRoot clock)
  obtain ⟨-, hvalue, hstop⟩ := hmeets.eq_mapError
  have hmatches : (record limits p.statements root.1 root.2).1 =
      run limits p.statements root.1 root.2 := Recorded.matches_record limits p.statements _ _
  replace hmatches : (record limits p.statements [0] root.2).1.1 = result :=
    congrArg Prod.fst hmatches
  rw [hmatches] at hvalue hstop
  refine ⟨fun v hv => ?_, fun stop hs hends => (hstop stop hs).placed hends⟩
  have hclosed : v.Closed _ ts := hvalue v hv
  cases v with
  | returned w => exact hclosed.elim
  | _ => exact nofun

end Program

namespace Session

theorem bind_apply {α β : Type} (e : SessionM α) (f : α → SessionM β) (s : Session) :
    (e >>= f) s =
      match e s with
      | (.ok a, s') => f a s'
      | (.error failure, s') => (.error failure, s') := by
  change ExceptT.bindCont f (e s).1 (e s).2 = _
  rcases e s with ⟨failure | a, s'⟩ <;> rfl

theorem parse_apply (source : String) (s : Session) :
    parse source s =
      match Program.ofTokens s.limits.grammarRoom s.limits.maxNesting (.ofSource source) with
      | .ok p => (.ok p, { s with events := s.events.push (.parsed p.statements.length) })
      | .error e => (.error (s.parseFailure e), s) := by
  unfold parse
  rw [bind_apply]
  change (match Program.ofTokens s.limits.grammarRoom s.limits.maxNesting (.ofSource source) with
    | .ok _ => _ | .error _ => _ : SessionM Program) s = _
  cases Program.ofTokens s.limits.grammarRoom s.limits.maxNesting (.ofSource source) <;> rfl

theorem evaluation_apply {α : Type} (e : Evaluation α) (s : Session) :
    evaluation e s =
      (((e s.machine).1).mapError s.stopFailure, { s with machine := (e s.machine).2 }) := by
  have hget : (get : SessionM Session) s = (.ok s, s) := rfl
  unfold evaluation
  rw [bind_apply, hget]
  simp only
  rcases e s.machine with ⟨stop | a, m⟩ <;> rfl

theorem runWith_apply (scope : SessionM Scope) (root : Machine → Scope × Machine)
    (hscope : ∀ s, scope s = (.ok (root s.machine).1, { s with machine := (root s.machine).2 }))
    (source : String) (s : Session) :
    ∃ events, runWith scope source s =
      match Program.ofTokens s.limits.grammarRoom s.limits.maxNesting (.ofSource source) with
      | .error e => (.error (s.parseFailure e), { s with events })
      | .ok p =>
        let x := Program.run s.limits p.statements (root s.machine).1 (root s.machine).2
        (x.1.mapError s.stopFailure, { s with machine := x.2, events }) := by
  have hrecord (e : Event) (s : Session) : record e s =
      (.ok (), { s with events := s.events.push e }) := rfl
  have hget (s : Session) : (get : SessionM Session) s = (.ok s, s) := rfl
  unfold runWith
  rw [bind_apply, hrecord]
  simp only
  rw [bind_apply, parse_apply]
  simp only
  rcases Program.ofTokens s.limits.grammarRoom s.limits.maxNesting (.ofSource source) with e | p
  · cases e <;> exact ⟨_, rfl⟩
  · simp only
    rw [bind_apply, hscope]
    simp only
    rw [bind_apply, hget]
    simp only
    rw [bind_apply, evaluation_apply]
    simp only
    rcases Program.run s.limits p.statements (root s.machine).1 (root s.machine).2 with ⟨_ | _, _⟩
    · exact ⟨_, rfl⟩
    · exact ⟨_, rfl⟩

theorem run_apply (s : Session) (source : String) :
    (run source s).1 =
      match Program.ofTokens s.limits.grammarRoom s.limits.maxNesting (.ofSource source) with
      | .error e => .error (s.parseFailure e)
      | .ok p =>
        let root := s.machine.openRoot
        ((Program.run s.limits p.statements root.1 root.2).1).mapError s.stopFailure := by
  obtain ⟨events, hrun⟩ := runWith_apply newRoot Machine.openRoot (fun _ => rfl) source s
  unfold run
  rw [hrun]
  cases Program.ofTokens s.limits.grammarRoom s.limits.maxNesting (.ofSource source) <;> rfl

section

variable {s : Session} (hs : s.blank = [])

include hs

theorem parseFailure_of_set (e : ParseError) : s.parseFailure e = e.failure := by
  cases e with
  | nesting limit pos =>
    unfold parseFailure
    simp only [hs]
    exact if_neg List.not_mem_nil
  | _ => rfl

theorem stopFailure_of_set (stop : Stop) : s.stopFailure stop = stop.failure := by
  unfold stopFailure
  split
  · rw [hs]
    exact if_neg List.not_mem_nil
  · rfl

end

theorem run_start (limits : Limits) (clock : Clock) (source : String) :
    (run source (start limits [] clock)).1 =
      match Program.ofTokens limits.grammarRoom limits.maxNesting (.ofSource source) with
      | .error e => .error e.failure
      | .ok p =>
        let root := (Machine.initial clock).openRoot
        ((Program.run limits p.statements root.1 root.2).1).mapError Stop.failure := by
  have hparse : (start limits [] clock).parseFailure = ParseError.failure :=
    funext (parseFailure_of_set rfl)
  have hstop : (start limits [] clock).stopFailure = Stop.failure :=
    funext (stopFailure_of_set rfl)
  rw [run_apply, hparse, hstop]
  rfl

/-- A source that is run by itself and ends comes to a value, or to an error whose line and column are
those of a character of the source or of its end, or the parser meets a hexadecimal literal that is too
large. So does its program: it makes no error for a node that cannot be evaluated, for a return outside
of functions or for an operator that is not known, and none without a place. -/
theorem run_ends (limits : Limits) (clock : Clock) (source : String) :
    let result := (run source (start limits [] clock)).1
    (∀ v, result = .ok v → v.kind ≠ .returned) ∧
      (∀ f, result = .error f → f ≠ .endless → f.Placed source) ∧
      ∀ p, Program.ofTokens limits.grammarRoom limits.maxNesting (.ofSource source) = .ok p →
        let root := (Machine.initial clock).openRoot
        ∀ stop, (Program.run limits p.statements root.1 root.2).1 = .error stop → stop ≠ .endless →
          stop.Placed source := by
  intro result
  have hresult := run_start limits clock source
  have hlocated := Program.ofTokens_located limits.grammarRoom limits.maxNesting
    (TokenStream.ofSource_consists source)
  cases hparse : Program.ofTokens limits.grammarRoom limits.maxNesting (.ofSource source) with
  | error e =>
    rw [hparse] at hresult hlocated
    replace hresult : result = .error e.failure := hresult
    rw [hresult]
    refine ⟨nofun, fun f hf _ => ?_, nofun⟩
    exact Except.error.inj hf ▸ hlocated.failure
  | ok p =>
    obtain ⟨hvalue, hstop⟩ := Program.run_placed limits clock hparse
    rw [hparse] at hresult
    refine ⟨?_, ?_, fun p' hp' => Except.ok.inj hp' ▸ hstop⟩
    all_goals
      simp only [result, hresult]
      generalize (Program.run limits p.statements _ _).1 = x at hvalue hstop
    · intro v hv
      cases x with
      | ok w => exact Except.ok.inj hv ▸ hvalue w rfl
      | error stop => cases hv
    · intro f hf hends
      cases x with
      | ok w => cases hf
      | error stop =>
        obtain rfl := Except.error.inj hf
        refine (hstop stop rfl fun hendless => hends ?_).failure
        rw [hendless]
        rfl

end Session

end Scriptlet
