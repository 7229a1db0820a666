import Scriptlet.Proofs.CutStreams
import Scriptlet.Proofs.ListingOptions
import Scriptlet.Proofs.OperatorChains
import Scriptlet.Proofs.ShellLines
import Scriptlet.Proofs.WrittenOutput

/-!
Listings do not change what a program does: with the tokens or the tree of a source in front of it, it
writes and answers what it does without them, if the host's stack has room for the tree. If the tokens are
cut short then nothing parses, and so nothing runs in either case.
-/

namespace Scriptlet

theorem ScanError.failure_ends (e : ScanError) : e.failure ≠ .endless := by
  cases e <;> exact nofun

namespace Session

theorem parseFailure_ne (s : Session) (e : ParseError) :
    s.parseFailure e ≠ .endless ∧ s.parseFailure e ≠ .exhausted := by
  unfold parseFailure
  split
  · split <;> exact ⟨nofun, nofun⟩
  · cases e with
    | scan e => cases e <;> exact ⟨nofun, nofun⟩
    | _ => exact ⟨nofun, nofun⟩

theorem stopFailure_ne_exhausted (s : Session) (stop : Stop) : s.stopFailure stop ≠ .exhausted := by
  unfold stopFailure
  split
  · split <;> exact nofun
  · cases stop with
    | error f => cases f <;> exact nofun
    | _ => exact nofun

theorem run_ne_exhausted (source : String) (s : Session) :
    ((run source s).1.map fun _ => ()) ≠ .error .exhausted := by
  obtain ⟨events, hrun⟩ := runWith_apply newRoot Machine.openRoot (fun _ => rfl) source s
  unfold run
  rw [hrun]
  cases Program.ofTokens s.limits.grammarRoom s.limits.maxNesting (.ofSource source) with
  | error e => exact fun h => (s.parseFailure_ne e).2 (Except.error.inj h)
  | ok p =>
    simp only
    cases (Program.run s.limits p.statements s.machine.openRoot.1 s.machine.openRoot.2).1 with
    | ok v => exact nofun
    | error stop => exact fun h => s.stopFailure_ne_exhausted stop (Except.error.inj h)

end Session

namespace CommandLine

/-- The exit status of a run, if it ends. A failure that the program does not report counts as one. -/
def Answer.status? (a : Answer) : Option Nat :=
  match a.ending with
  | .ok status => some status
  | .error .endless => none
  | .error _ => some 1

def tokenListing (source : String) : String :=
  let stream := TokenStream.ofSource source
  "Tokens:\n" ++ String.join (stream.tokens.map fun t => t.listing ++ "\n") ++
    match stream.error with
    | none => "\n"
    | some _ => ""

def listedError? (tokens : Bool) (source : String) : Option ScanError :=
  if tokens then (TokenStream.ofSource source).error else none

def treeListing (p : Program) : String :=
  "AST:\n" ++ (p.node.outline ++ "\n\n")

namespace Run

section

variable {t : Transcript}

theorem writes_listTokens (source : String) (t : Transcript) :
    Writes (listTokens source) t
      (match (TokenStream.ofSource source).error with
        | none => .ok ()
        | some e => .error e.failure)
      t.session (tokenListing source) "" := by
  unfold listTokens tokenListing
  rw [String.append_assoc]
  refine (writes_write "Tokens:\n" t).bind_quiet fun u _ hu => ?_
  have hlines := writes_forM (t := u) (fun t v _ => writes_write (t.listing ++ "\n") v)
    (TokenStream.ofSource source).tokens
  rw [join_map_empty] at hlines
  refine hlines.bind_quiet fun v _ hv => ?_
  rw [← hu, ← hv]
  cases (TokenStream.ofSource source).error with
  | none => exact writes_write "\n" v
  | some e => exact writes_same rfl

def treeText (verbose : Bool) (p : Program) : String :=
  logText verbose (logEvent (.parsed p.statements.length))

theorem writes_parsed {p : Program} (source : String) (hquiet : t.session.collected = t.session)
    (hp : Program.ofTokens t.session.limits.grammarRoom t.session.limits.maxNesting
      (.ofSource source) = .ok p) :
    Writes (inSession (Session.parse source)) t (.ok p) t.session "" (treeText t.arguments.verbose p) := by
  have hparse := Session.parse_apply source t.session
  rw [hp] at hparse
  have hsession := writes_inSession (Session.parse source) hparse
  change Writes _ t (.ok p) t.session.collected t.session.machine.output
    (eventsText t.arguments.verbose (t.session.events.push (.parsed p.statements.length)).toList)
    at hsession
  rw [hquiet, Session.output_of_collected hquiet, Session.events_of_collected hquiet] at hsession
  exact hsession

theorem writes_showTree {p : Program} (source : String) (hquiet : t.session.collected = t.session)
    (hp : Program.ofTokens t.session.limits.grammarRoom t.session.limits.maxNesting
      (.ofSource source) = .ok p) :
    Writes (showTree source) t
      (if p.node.height < t.session.limits.outlineRoom then .ok () else .error .exhausted) t.session
      (if p.node.height < t.session.limits.outlineRoom then treeListing p else "AST:\n")
      (treeText t.arguments.verbose p) := by
  have hlisting : (if p.node.height < t.session.limits.outlineRoom then treeListing p else "AST:\n") =
      "AST:\n" ++ if p.node.height < t.session.limits.outlineRoom then p.node.outline ++ "\n\n"
        else "" := by
    split
    · rfl
    · exact String.append_empty.symm
  rw [hlisting, ← String.append_empty (s := treeText t.arguments.verbose p)]
  refine (writes_write "AST:\n" t).bind_quiet fun u hu hsu => ?_
  rw [← hu]
  simp only [← hsu] at hquiet hp ⊢
  refine (writes_parsed source hquiet hp).bind_logged fun v _ hv => .get ?_
  simp only [← hv, Node.outlineWithin_eq]
  by_cases hfits : p.node.height < v.session.limits.outlineRoom
  · simp only [if_pos hfits]
    exact writes_write _ v
  · simp only [if_neg hfits]
    exact writes_same rfl

theorem writes_showTree_unparsed {e : ParseError} (source : String)
    (hquiet : t.session.collected = t.session)
    (hp : Program.ofTokens t.session.limits.grammarRoom t.session.limits.maxNesting
      (.ofSource source) = .error e) :
    Writes (showTree source) t (.error (t.session.parseFailure e)) t.session "AST:\n" "" := by
  have hparse := Session.parse_apply source t.session
  rw [hp] at hparse
  rw [← String.append_empty (s := "AST:\n")]
  refine (writes_write "AST:\n" t).bind_quiet fun u _ hsu => ?_
  rw [← hsu] at hparse hquiet ⊢
  have hsession := writes_inSession (Session.parse source) hparse
  rw [hquiet, Session.output_of_collected hquiet, Session.events_of_collected hquiet] at hsession
  exact hsession.bind_error _

theorem runSource_apply (source : String) (t : Transcript) :
    runSource source t =
      ((if t.arguments.tokens then listTokens source else pure ()) >>= fun _ =>
        (if t.arguments.ast then showTree source else pure ()) >>= fun _ =>
          inSession (Session.run source) >>= fun _ => pure ()) t := by
  refine (bind_apply get _ t).trans ?_
  change (if t.arguments.tokens = true then _ else _ : Run Unit) t = _
  cases t.arguments.tokens <;> cases t.arguments.ast <;> rfl

theorem writes_tokens {p : Program} {source : String} {room : Nat} {N : Int}
    (hp : Program.ofTokens room N (.ofSource source) = .ok p) (t : Transcript) :
    Writes (if t.arguments.tokens then listTokens source else pure ()) t (.ok ()) t.session
      (if t.arguments.tokens then tokenListing source else "") "" := by
  have hcomplete : (TokenStream.ofSource source).error = none := by
    obtain ⟨ts, eof, -, -, hstream⟩ := Program.tokens_of_ofTokens hp
    rw [hstream]
  have htokens := writes_listTokens source t
  rw [hcomplete] at htokens
  have hif := writes_if t.arguments.tokens htokens
  rwa [ite_self] at hif

theorem writes_runSource_ok {p : Program} (source : String)
    (hquiet : t.session.collected = t.session)
    (hp : Program.ofTokens t.session.limits.grammarRoom t.session.limits.maxNesting
      (.ofSource source) = .ok p)
    (hfits : t.arguments.ast = true → p.node.height < t.session.limits.outlineRoom) :
    let x := Session.run source t.session
    Writes (runSource source) t (x.1.map fun _ => ()) x.2.collected
      ((if t.arguments.tokens then tokenListing source else "") ++
        ((if t.arguments.ast then treeListing p else "") ++ x.2.machine.output))
      ((if t.arguments.ast then treeText t.arguments.verbose p else "") ++
        eventsText t.arguments.verbose x.2.events.toList) := by
  intro x
  refine .congr (runSource_apply source t) ?_
  refine (writes_tokens hp t).bind_quiet fun u hu hsu => ?_
  have htree : Writes (if t.arguments.ast then showTree source else pure ()) u (.ok ()) u.session
      (if t.arguments.ast then treeListing p else "")
      (if t.arguments.ast then treeText t.arguments.verbose p else "") := by
    cases hast : t.arguments.ast with
    | false => exact writes_same rfl
    | true =>
      have hshow := writes_showTree (t := u) source (by rw [hsu, hquiet]) (by rw [hsu, hp])
      simp only [hsu, if_pos (hfits hast), hu] at hshow ⊢
      exact hshow
  refine htree.bind fun v hv hsv => ?_
  have hrun : Writes (inSession (Session.run source)) v x.1 x.2.collected x.2.machine.output
      (eventsText v.arguments.verbose x.2.events.toList) :=
    writes_inSession _ (by rw [hsv, hsu]; rfl)
  rw [hv, hu] at hrun
  cases hx : x.1 with
  | error f =>
    rw [hx] at hrun
    exact hrun.bind_error _
  | ok w =>
    rw [hx] at hrun
    exact hrun.bind_same fun _ => rfl

theorem writes_runSource_exhausted {p : Program} (source : String)
    (hquiet : t.session.collected = t.session)
    (hp : Program.ofTokens t.session.limits.grammarRoom t.session.limits.maxNesting
      (.ofSource source) = .ok p)
    (hast : t.arguments.ast = true) (hfits : ¬p.node.height < t.session.limits.outlineRoom) :
    Writes (runSource source) t (.error .exhausted) t.session
      ((if t.arguments.tokens then tokenListing source else "") ++ "AST:\n")
      (treeText t.arguments.verbose p) := by
  refine .congr (runSource_apply source t) ?_
  refine (writes_tokens hp t).bind_quiet fun u hu hsu => ?_
  have hshow := writes_showTree (t := u) source (by rw [hsu, hquiet]) (by rw [hsu, hp])
  simp only [hsu, if_neg hfits, hu] at hshow
  rw [hast]
  exact hshow.bind_error _

theorem writes_unparsed {source : String} {e : ParseError}
    (hquiet : t.session.collected = t.session)
    (hp : Program.ofTokens t.session.limits.grammarRoom t.session.limits.maxNesting
      (.ofSource source) = .error e) (ast : Bool) :
    Writes ((if ast then showTree source else pure ()) >>= fun _ =>
        inSession (Session.run source) >>= fun _ => pure ()) t
      (.error (t.session.parseFailure e)) t.session (if ast then "AST:\n" else "")
      (if ast then ""
        else eventsText t.arguments.verbose (Session.run source t.session).2.events.toList) := by
  cases ast with
  | true => exact (writes_showTree_unparsed source hquiet hp).bind_error _
  | false =>
    refine (writes_same rfl).bind_silent fun u hu hsu => ?_
    rw [← hu]
    rw [← hsu] at hp hquiet ⊢
    obtain ⟨events, hrun⟩ :=
      Session.runWith_apply Session.newRoot Machine.openRoot (fun _ => rfl) source u.session
    rw [hp] at hrun
    have hevents : (Session.run source u.session).2.events = events := congrArg (·.2.events) hrun
    have hsession : Writes (inSession (Session.run source)) u (.error (u.session.parseFailure e))
        u.session.collected u.session.machine.output (eventsText u.arguments.verbose events.toList) :=
      writes_inSession (Session.run source) hrun
    rw [hquiet, Session.output_of_collected hquiet, ← hevents] at hsession
    exact hsession.bind_error _

theorem writes_runSource_unparsed {e : ParseError} (source : String)
    (hquiet : t.session.collected = t.session)
    (hp : Program.ofTokens t.session.limits.grammarRoom t.session.limits.maxNesting
      (.ofSource source) = .error e) :
    let listed? := listedError? t.arguments.tokens source
    Writes (runSource source) t
      (.error (listed?.elim (t.session.parseFailure e) ScanError.failure)) t.session
      ((if t.arguments.tokens then tokenListing source else "") ++
        if t.arguments.ast && listed?.isNone then "AST:\n" else "")
      (if t.arguments.ast || listed?.isSome then ""
        else eventsText t.arguments.verbose (Session.run source t.session).2.events.toList) := by
  have htokens := writes_listTokens source t
  have hrest (u : Transcript) (hu : u.arguments = t.arguments) (hsu : u.session = t.session) :=
    writes_unparsed (t := u) (by rw [hsu, hquiet]) (by rw [hsu, hp]) t.arguments.ast
  refine .congr (runSource_apply source t) ?_
  cases t.arguments.tokens with
  | false =>
    have hlisted : listedError? false source = none := rfl
    rw [hlisted, Option.isNone_none, Bool.and_true, Option.isSome_none, Bool.or_false]
    exact (writes_same rfl).bind_quiet fun u hu hsu => hsu ▸ hu ▸ hrest u hu hsu
  | true =>
    have hlisted : listedError? true source = (TokenStream.ofSource source).error := rfl
    rw [hlisted]
    cases herror : (TokenStream.ofSource source).error with
    | none =>
      rw [herror] at htokens
      rw [Option.isNone_none, Bool.and_true, Option.isSome_none, Bool.or_false]
      exact htokens.bind_quiet fun u hu hsu => hsu ▸ hu ▸ hrest u hu hsu
    | some e' =>
      rw [herror] at htokens
      rw [Option.isNone_some, Bool.and_false, if_neg Bool.false_ne_true, String.append_empty,
        Option.isSome_some, Bool.or_true, if_pos rfl]
      exact htokens.bind_error _

end

theorem status_concluded {f : Failure} (hends : f ≠ .endless) (out err : String) :
    (Answer.mk out err (concluded (.error f)).1).status? = some 1 := by
  cases f with
  | endless => exact absurd rfl hends
  | _ => rfl

theorem concluded_placed {source : String} {f : Failure} (hf : f.Placed source)
    (hfits : ¬Lexeme.MeetsTooLarge source) : (concluded (.error f)).1 = .ok 1 := by
  rcases hf.diagnostic with ⟨d, hd⟩ | ⟨-, hlarge⟩
  · simp only [concluded, hd]
  · exact absurd hlarge hfits

section

variable {a : Arguments} {content : Except ReadError (List UInt8)} {source : String} {clock : Clock}
  {host : Int → Stack}
  (hobstacle : (Session.start (a.limits host) a.blank clock).obstacle? = none)
  (hread : text? content = some source)

include hobstacle hread

theorem answer_parsed {p : Program}
    (hp : Program.ofTokens (a.limits host).grammarRoom (a.limits host).maxNesting (.ofSource source) =
      .ok p)
    (hfits : a.ast = true → p.node.height < (a.limits host).outlineRoom) :
    let start := Session.start (a.limits host) a.blank clock
    let x := Session.run source start.collected
    let result := concluded (x.1.map fun _ => ())
    (program content).answer (.start a clock host) =
      ⟨(if a.tokens then tokenListing source else "") ++
          ((if a.ast then treeListing p else "") ++ x.2.machine.output),
        openingText a start ++
          ((if a.ast then treeText a.verbose p else "") ++
            (eventsText a.verbose x.2.events.toList ++ result.2)), result.1⟩ := by
  intro start x result
  have hwrites : Writes (program content) (.start a clock host) _ _ ("" ++ _) _ :=
    writes_program hobstacle hread fun u hu hsu => by
      have hrun := writes_runSource_ok (t := u) (p := p) source (by rw [hsu]; rfl)
        (by rw [hsu]; exact hp) (by rw [hu, hsu]; exact hfits)
      rw [hu, hsu] at hrun
      exact hrun
  rw [String.empty_append, String.append_assoc] at hwrites
  exact hwrites.answer rfl rfl

theorem answer_exhausted {p : Program}
    (hp : Program.ofTokens (a.limits host).grammarRoom (a.limits host).maxNesting (.ofSource source) =
      .ok p)
    (hast : a.ast = true) (hfits : ¬p.node.height < (a.limits host).outlineRoom) :
    (program content).answer (.start a clock host) =
      ⟨(if a.tokens then tokenListing source else "") ++ "AST:\n",
        openingText a (Session.start (a.limits host) a.blank clock) ++ (treeText a.verbose p ++ ""),
        .error .exhausted⟩ := by
  have hwrites : Writes (program content) (.start a clock host) _ _ ("" ++ _) _ :=
    writes_program hobstacle hread fun u hu hsu => by
      have hrun := writes_runSource_exhausted (t := u) (p := p) source (by rw [hsu]; rfl)
        (by rw [hsu]; exact hp) (by rw [hu]; exact hast) (by rw [hsu]; exact hfits)
      rw [hu, hsu] at hrun
      exact hrun
  rw [String.empty_append] at hwrites
  exact hwrites.answer rfl rfl

theorem answer_unparsed {e : ParseError}
    (hp : Program.ofTokens (a.limits host).grammarRoom (a.limits host).maxNesting (.ofSource source) =
      .error e) :
    let answer := (program content).answer (.start a clock host)
    answer.status? = some 1 ∧
      answer.out = (if a.tokens then tokenListing source else "") ++
        (if a.ast && (listedError? a.tokens source).isNone then "AST:\n" else "") ∧
      (a.blank = [] → ¬Lexeme.MeetsTooLarge source → answer.ending = .ok 1) := by
  intro answer
  let s := (Session.start (a.limits host) a.blank clock).collected
  let f := (listedError? a.tokens source).elim (s.parseFailure e) ScanError.failure
  have hwrites : Writes (program content) (.start a clock host) (concluded (.error f)).1 _ ("" ++ _)
      (_ ++ (_ ++ (concluded (.error f)).2)) :=
    writes_program hobstacle hread fun u hu hsu => by
      have hrun := writes_runSource_unparsed (t := u) (e := e) source
        (by rw [hsu]; rfl) (by rw [hsu]; exact hp)
      rw [hu, hsu] at hrun
      exact hrun
  rw [String.empty_append] at hwrites
  have hanswer : answer = ⟨_, _, _⟩ := hwrites.answer rfl rfl
  rw [hanswer]
  refine ⟨status_concluded ?_ _ _, rfl, fun hblank hfits => concluded_placed ?_ hfits⟩
  · cases h : listedError? a.tokens source with
    | some e' =>
      simp only [f, h]
      exact e'.failure_ends
    | none =>
      simp only [f, h]
      exact (s.parseFailure_ne e).1
  · cases h : listedError? a.tokens source with
    | some e' =>
      have herror : (TokenStream.ofSource source).error = some e' := by
        unfold listedError? at h
        split at h
        · exact h
        · cases h
      simp only [f, h]
      exact ParseError.Located.failure (e := .scan e')
        ((TokenStream.ofSource_consists source).error e' herror)
    | none =>
      have hlocated := Program.ofTokens_located (a.limits host).grammarRoom (a.limits host).maxNesting
        (TokenStream.ofSource_consists source)
      rw [hp] at hlocated
      simp only [f, h]
      rw [Option.elim_none, Session.parseFailure_of_set (s := s) hblank]
      exact hlocated.failure

end

end Run

/-- Options that ask for listings do not change what a source does, on every host: one that parses is
listed and then does what it does without them, and one that does not parse prints nothing. A log that
is wanted tells of the tree too. About a tree that does not fit on the host's stack nothing is said. -/
theorem answer_flags (args : List String) (terminal tokens ast : Bool) (a : Arguments)
    (content : Except ReadError (List UInt8)) (clock : Clock) (host : Int → Stack) :
    plan (Arguments.flags tokens ast ++ args) terminal = (plan args terminal).listing tokens ast ∧
      let limits := a.limits host
      let start := Session.start limits a.blank clock
      let plain := (Run.program content).answer
        (.start { a with tokens := false, ast := false } clock host)
      let shown := (Run.program content).answer (.start { a with tokens, ast } clock host)
      match start.obstacle?, text? content with
      | none, some source =>
        match Program.ofTokens limits.grammarRoom limits.maxNesting (.ofSource source) with
        | .ok p =>
          (ast = true → p.node.height < limits.outlineRoom) →
            shown.status? = plain.status? ∧ shown.ending = plain.ending ∧
              shown.out = (if tokens then tokenListing source else "") ++
                ((if ast then treeListing p else "") ++ plain.out) ∧
              (a.verbose = false → shown.err = plain.err) ∧
              ∃ rest, plain.err = Run.openingText a start ++ rest ∧
                shown.err = Run.openingText a start ++
                  ((if ast then Run.treeText a.verbose p else "") ++ rest)
        | .error _ =>
          shown.status? = plain.status? ∧ plain.out = "" ∧
            shown.out = (if tokens then tokenListing source else "") ++
              (if ast && (listedError? tokens source).isNone then "AST:\n" else "") ∧
            (a.blank = [] → ¬Lexeme.MeetsTooLarge source →
              plain.ending = .ok 1 ∧ shown.ending = .ok 1)
      | _, _ => shown = plain ∧ plain.out = "" := by
  refine ⟨plan_flags tokens ast args terminal, ?_⟩
  intro limits start plain shown
  have hunread (h : start.obstacle? ≠ none ∨ text? content = none) :
      shown = plain ∧ plain.out = "" := by
    obtain ⟨r, err, hwrites⟩ := Run.writes_program_unread content _ a h
    have hplain : plain = _ :=
      (hwrites (.start { a with tokens := false, ast := false } clock host) rfl rfl rfl).answer rfl rfl
    have hshown : shown = _ :=
      (hwrites (.start { a with tokens, ast } clock host) rfl rfl rfl).answer rfl rfl
    rw [hplain, hshown]
    exact ⟨rfl, rfl⟩
  cases hobstacle : start.obstacle? with
  | some f => exact hunread (.inl (by rw [hobstacle]; exact nofun))
  | none =>
    cases hread : text? content with
    | none => exact hunread (.inr hread)
    | some source =>
      cases hp : Program.ofTokens limits.grammarRoom limits.maxNesting (.ofSource source) with
      | ok p =>
        simp only [hp]
        intro hfits
        have hplain : plain = _ := Run.answer_parsed
          (a := { a with tokens := false, ast := false }) hobstacle hread hp nofun
        have hshown : shown = _ :=
          Run.answer_parsed (a := { a with tokens, ast }) hobstacle hread hp hfits
        rw [if_neg Bool.false_ne_true, if_neg Bool.false_ne_true, if_neg Bool.false_ne_true,
          String.empty_append, String.empty_append, String.empty_append] at hplain
        rw [hplain, hshown]
        refine ⟨rfl, rfl, rfl, fun hverbose => ?_, _, rfl, rfl⟩
        have htree : Run.treeText a.verbose p = "" := by
          rw [hverbose]
          rfl
        simp only [htree, ite_self, String.empty_append]
        rfl
      | error e =>
        simp only [hp]
        obtain ⟨hplain, hout, hending⟩ := Run.answer_unparsed
          (a := { a with tokens := false, ast := false }) hobstacle hread hp
        obtain ⟨hshown, hout', hending'⟩ :=
          Run.answer_unparsed (a := { a with tokens, ast }) hobstacle hread hp
        exact ⟨hshown.trans hplain.symm, hout, hout', fun hblank hfits =>
          ⟨hending hblank hfits, hending' hblank hfits⟩⟩

theorem Run.concluded_ne_exhausted {r : Except Failure Unit} (h : r ≠ .error .exhausted) :
    (concluded r).1 ≠ .error .exhausted := by
  cases r with
  | ok => exact nofun
  | error f =>
    cases f with
    | exhausted => exact absurd rfl h
    | _ => exact nofun

theorem ofTokens_nil (room : Nat) :
    Program.ofTokens (room + 10) 128 (.ofSource "nil;\n") =
      .ok ⟨[.expression (some ⟨1, 1⟩) (.literal (some ⟨1, 1⟩) .nil)]⟩ := by
  have hstream : TokenStream.ofSource "nil;\n" =
      ⟨[⟨.keyword .nilWord, "nil", ⟨1, 1⟩, 0, none⟩, ⟨.symbol .semicolon, ";", ⟨1, 4⟩, 3, none⟩,
        .endOfInput ⟨2, 1⟩ 5], none⟩ := by
    unfold TokenStream.ofSource
    rw [Scanner.stream_step rfl rfl, Scanner.stream_step rfl rfl, Scanner.stream_step rfl rfl,
      Scanner.stream_finished rfl]
    rfl
  rw [hstream]
  rfl

/-- Where a log is wanted the listing of a tree is told in it, and on every stack there are sources that
run, but end in a failure where their trees are to be listed. -/
theorem answer_listed_differs :
    let answer (a : Arguments) (clock : Clock) (host : Int → Stack) (source : String) :=
      (Run.program (.ok (Text.asciiBytes source.toList))).answer (.start a clock host)
    (∀ (host : Int → Stack) (clock : Clock), 10 ≤ (host 13800).grammarRoom →
      2 < (host 13800).outlineRoom →
        (answer { verbose := true, ast := true } clock host "nil;\n").err ≠
          (answer { verbose := true } clock host "nil;\n").err) ∧
      ∀ (host : Int → Stack) (clock : Clock), 10 ≤ (host 13800).grammarRoom →
        let source := Program.chainSource (host 13800).outlineRoom
        let plain := answer {} clock host source
        let shown := answer { ast := true } clock host source
        ∃ p, Program.ofTokens (host 13800).grammarRoom 128 (.ofSource source) = .ok p ∧
          shown.ending = .error .exhausted ∧ plain.ending ≠ .error .exhausted ∧
            shown.out ≠ treeListing p ++ plain.out := by
  intro answer
  have hroom {host : Int → Stack} (h : 10 ≤ (host 13800).grammarRoom) :
      ∃ room, (host 13800).grammarRoom = room + 10 :=
    ⟨_, (Nat.sub_add_cancel h).symm⟩
  constructor
  · intro host clock hgrammar hfits h
    obtain ⟨room, hroom⟩ := hroom hgrammar
    have hread : text? (.ok (Text.asciiBytes "nil;\n".toList)) = some "nil;\n" :=
      text?_ascii (by simp)
    have hp := ofTokens_nil room
    rw [← hroom] at hp
    have hplain : answer { verbose := true } clock host "nil;\n" = _ :=
      Run.answer_parsed rfl hread hp nofun
    have hshown : answer { verbose := true, ast := true } clock host "nil;\n" = _ :=
      Run.answer_parsed rfl hread hp fun _ => hfits
    rw [hplain, hshown] at h
    have htree := (String.append_left_inj _).mp ((String.append_right_inj _).mp h)
    exact absurd htree (by decide)
  · intro host clock hgrammar source plain shown
    obtain ⟨room, hroom⟩ := hroom hgrammar
    obtain ⟨p, hp, hheight⟩ :=
      Program.exists_ofTokens_chainSource (host 13800).outlineRoom room (N := 128) (by decide)
    rw [← hroom] at hp
    have hread : text? (.ok (Text.asciiBytes source.toList)) = some source :=
      text?_ascii (Program.chainSource_ascii _)
    have hfits : ¬p.node.height < (host 13800).outlineRoom := by omega
    have hplain : plain = _ := Run.answer_parsed rfl hread hp nofun
    have hshown : shown = _ := Run.answer_exhausted rfl hread hp rfl hfits
    refine ⟨p, hp, congrArg Answer.ending hshown, ?_, ?_⟩
    · rw [hplain]
      exact Run.concluded_ne_exhausted (Session.run_ne_exhausted _ _)
    · intro h
      have hout : "" ++ "AST:\n" = treeListing p ++ _ := (congrArg Answer.out hshown).symm.trans h
      have hlength := congrArg String.length hout
      simp only [String.empty_append, treeListing, String.length_append] at hlength
      have hend : 0 < "\n\n".length := by decide
      omega

end CommandLine

end Scriptlet
