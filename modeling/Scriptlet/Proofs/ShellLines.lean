import Scriptlet.Proofs.Isolation
import Scriptlet.Shell

namespace Scriptlet

theorem Stop.Settled.diagnostic {stop : Stop} (h : stop.Settled Token.Spelled)
    (hends : stop ≠ .endless) : ∃ d, stop.failure.diagnostic? = some d := by
  obtain ⟨hlocated, hroom⟩ := h
  cases stop with
  | error fault pos => cases fault <;> exact ⟨_, rfl⟩
  | unknownOperator op =>
    obtain ⟨t, ht, hspelled⟩ := hlocated
    exact absurd ht hspelled
  | exhausted => exact absurd rfl hroom
  | endless => exact absurd rfl hends

theorem Failure.Placed.diagnostic {source : String} {f : Failure} (h : f.Placed source) :
    (∃ d, f.diagnostic? = some d) ∨ f = .numberTooLarge ∧ Lexeme.MeetsTooLarge source := by
  cases f with
  | diagnosed d | sourceTooDeep d | callsTooDeep d => exact .inl ⟨d, rfl⟩
  | numberTooLarge => exact .inr ⟨rfl, h⟩
  | _ => exact h.elim

namespace Program

theorem runFrom_error {limits : Limits} {e : Scope} {last : Value} {ns : List Node} {m n : Machine}
    {stop : Stop} (h : runFrom limits e last ns m = (.error stop, n)) :
    ∃ before node behind v k, ns = before ++ node :: behind ∧
      runFrom limits e last before m = (.ok v, k) ∧
      (node.evaluate limits e k = (.error stop, n) ∨ stop = .error .returnOutside none) := by
  induction ns generalizing last m with
  | nil => cases h
  | cons node ns ih =>
    rw [runFrom, Evaluation.bind_apply] at h
    rcases hnode : node.evaluate limits e m with ⟨s | v, k⟩
    all_goals rw [hnode] at h
    · refine ⟨[], node, ns, last, m, rfl, rfl, .inl ?_⟩
      rw [hnode]
      exact h
    · cases v
      case returned w =>
        obtain ⟨hstop, -⟩ := Prod.mk.inj h
        exact ⟨[], node, ns, last, m, rfl, rfl, .inr (Except.error.inj hstop).symm⟩
      all_goals
        obtain ⟨before, node', behind, v, k', rfl, hbefore, hrest⟩ := ih h
        refine ⟨node :: before, node', behind, v, k', rfl, ?_, hrest⟩
        rw [runFrom, Evaluation.bind_apply, hnode]
        exact hbefore

end Program

namespace Session

def Sound (s : Session) : Prop :=
  ∃ ss, s.machine.Closed Token.Spelled ss ∧ ∀ scope ∈ s.globals, scope ∈ ss

theorem sound_start (limits : Limits) (blank : List Limit) (clock : Clock) :
    (start limits blank clock).Sound :=
  ⟨[], .initial clock, nofun⟩

namespace Sound

variable {s : Session} (h : s.Sound)

include h

theorem kept : ∃ ss, s.kept.2.Closed Token.Spelled ss ∧ s.kept.1 ∈ ss := by
  obtain ⟨ss, hclosed, hscope⟩ := h
  unfold Session.kept
  cases hglobals : s.globals with
  | none => exact ⟨_, hclosed.openRoot, List.mem_append_right _ (List.mem_singleton_self _)⟩
  | some scope => exact ⟨ss, hclosed, hscope scope hglobals⟩

theorem reset : s.reset.Sound := by
  obtain ⟨ss, hclosed, -⟩ := h
  exact ⟨ss, hclosed, nofun⟩

theorem takeOutput : s.takeOutput.2.Sound := by
  obtain ⟨ss, hclosed, hscope⟩ := h
  exact ⟨ss, hclosed.of_store rfl, hscope⟩

theorem run_kept {room : Nat} {N : Int} {source : String} {p : Program}
    (hp : Program.ofTokens room N (.ofSource source) = .ok p) :
    let x := Program.run s.limits p.statements s.kept.1 s.kept.2
    (∃ ss, x.2.Closed Token.Spelled ss ∧ s.kept.1 ∈ ss) ∧
      ∀ stop, x.1 = .error stop → stop.Settled Token.Spelled := by
  intro x
  obtain ⟨ss, hclosed, hscope⟩ := h.kept
  have hlocated := Program.ofTokens_located room N (TokenStream.ofSource_consists source)
  rw [hp] at hlocated
  have hformed : ∀ n ∈ p.statements, Formed Token.Spelled false .declaration n :=
    fun n hn => (hlocated n hn).imp fun t ht => ht.1.2 ht.2
  obtain ⟨ts, hts, -, hclosed', hmeets, -⟩ :=
    Program.follows s.limits hscope hformed s.kept.2 hclosed
  obtain ⟨-, -, hstop⟩ := hmeets.eq_mapError
  have hmatches : (Program.record s.limits p.statements s.kept.1 s.kept.2).1 = x :=
    Recorded.matches_record s.limits p.statements _ _
  rw [hmatches] at hclosed' hstop
  exact ⟨⟨ts, hclosed', hts.isPrefix.subset hscope⟩, hstop⟩

theorem runKept (source : String) : (runKept source s).2.Sound := by
  obtain ⟨ss, hclosed, hscope⟩ := h.kept
  obtain ⟨events, hrun⟩ := runKept_eq s source
  rw [hrun]
  cases hp : Program.ofTokens s.limits.grammarRoom s.limits.maxNesting (.ofSource source) with
  | error e => exact ⟨ss, hclosed, fun _ hglobals => Option.some.inj hglobals ▸ hscope⟩
  | ok p =>
    obtain ⟨⟨ts, hclosed', hscope'⟩, -⟩ := h.run_kept hp
    exact ⟨ts, hclosed', fun _ hglobals => Option.some.inj hglobals ▸ hscope'⟩

theorem failure_runKept (hblank : s.blank = []) {source : String} {f : Failure}
    (hf : (Session.runKept source s).1 = .error f) (hends : f ≠ .endless) :
    (∃ d, f.diagnostic? = some d) ∨ f = .numberTooLarge ∧ Lexeme.MeetsTooLarge source := by
  obtain ⟨events, hrun⟩ := runKept_eq s source
  have hlocated := Program.ofTokens_located s.limits.grammarRoom s.limits.maxNesting
    (TokenStream.ofSource_consists source)
  rw [hrun] at hf
  cases hp : Program.ofTokens s.limits.grammarRoom s.limits.maxNesting (.ofSource source) with
  | error e =>
    rw [hp] at hf hlocated
    obtain rfl := Except.error.inj hf
    rw [parseFailure_of_set hblank]
    exact hlocated.failure.diagnostic
  | ok p =>
    obtain ⟨-, hstop⟩ := h.run_kept hp
    rw [hp] at hf
    simp only at hf
    generalize (Program.run s.limits p.statements s.kept.1 s.kept.2).1 = x at hstop hf
    cases x with
    | ok v => cases hf
    | error stop =>
      obtain rfl := Except.error.inj hf
      rw [stopFailure_of_set hblank] at hends ⊢
      refine .inl ((hstop stop rfl).diagnostic fun hendless => hends ?_)
      rw [hendless]
      rfl

end Sound

theorem kept_takeOutput (s : Session) :
    s.takeOutput.2.kept = (s.kept.1, { s.kept.2 with output := "" }) := by
  unfold kept
  cases hglobals : s.globals <;> simp [Session.takeOutput, hglobals, Machine.openRoot]

theorem SameGlobals.takeOutput {s t : Session} (h : s.SameGlobals t) :
    s.takeOutput.2.SameGlobals t.takeOutput.2 := by
  obtain ⟨ρ, hρ, hlimits, hblank, hscope, hstore, hmade, hclock⟩ := h
  refine ⟨ρ, hρ, hlimits, hblank, ?_, ?_, ?_, ?_⟩
  all_goals rw [kept_takeOutput, kept_takeOutput]
  · exact hscope
  · exact hstore
  · exact hmade
  · exact hclock

theorem SameGlobals.reset {s t : Session} (h : s.SameGlobals t) : s.reset.SameGlobals t.reset := by
  obtain ⟨ρ, -, htwin⟩ := h
  have hclock := htwin.clock
  rw [clock_kept, clock_kept] at hclock
  exact sameGlobals_of_plain htwin.limits htwin.blank hclock (rooted_of_none rfl) (rooted_of_none rfl)
    ((bindings_of_none rfl).trans (bindings_of_none rfl).symm) (plain_of_none rfl)

end Session

namespace Shell

open Session

theorem Command.word_of_some {w : String} {c : Command} (h : ofWord? w = some c) : c.word = w := by
  unfold ofWord? at h
  simpa using List.find?_some h

theorem Command.not_mem_of_none {w : String} (h : ofWord? w = none) : w ∉ all.map word := by
  unfold ofWord? at h
  rw [List.mem_map]
  rintro ⟨c, hc, hword⟩
  exact List.find?_eq_none.mp h c hc (by simpa using hword)

theorem read_cases (line : String) :
    let word := String.ofList (Text.strip line.toList)
    (∃ c : Command, word = c.word ∧ Line.read line = .command c) ∨
      (word = "" ∧ Line.read line = .empty) ∨
      (word ∉ Command.all.map Command.word ∧ word ≠ "" ∧ Line.read line = .program line) := by
  intro word
  unfold Line.read
  cases hword : Command.ofWord? word with
  | some c =>
    simp only [word] at hword
    simp only [hword]
    exact .inl ⟨c, (Command.word_of_some hword).symm, rfl⟩
  | none =>
    have hnot : word ∉ Command.all.map Command.word := Command.not_mem_of_none hword
    simp only [word] at hword
    simp only [hword]
    refine .inr ?_
    cases hstrip : Text.strip line.toList with
    | nil => exact .inl ⟨by simp only [word, hstrip], rfl⟩
    | cons c cs =>
      refine .inr ⟨hnot, fun hempty => ?_, rfl⟩
      have hnil := congrArg String.toList hempty
      simp [word, hstrip] at hnil

theorem read_program {line : String}
    (hword : String.ofList (Text.strip line.toList) ∉ Command.all.map Command.word)
    (hne : String.ofList (Text.strip line.toList) ≠ "") : Line.read line = .program line := by
  rcases read_cases line with ⟨c, hc, -⟩ | ⟨hempty, -⟩ | ⟨-, -, hread⟩
  · exact absurd (List.mem_map.mpr ⟨c, by cases c <;> decide, hc.symm⟩) hword
  · exact absurd hempty hne
  · exact hread

theorem read_of_head {line : String} {c : Char} (hc : (Text.strip line.toList).head? = some c)
    (hwords : ∀ w ∈ Command.all.map Command.word, w.toList.head? ≠ some c) :
    Line.read line = .program line := by
  refine read_program (fun hmem => hwords _ hmem ?_) fun hempty => ?_
  · rw [String.toList_ofList]
    exact hc
  · rw [String.ofList_eq_empty_iff.mp hempty] at hc
    cases hc

def replies (s : Session) : List String → List Reply × Session
  | [] => ([], s)
  | line :: lines =>
    let r := reply s line
    let rest := replies r.2 lines
    (r.1 :: rest.1, rest.2)

theorem reply_program (s : Session) {line : String} (h : Line.read line = .program line) :
    let x := runKept line s
    reply s line = (conclude x.2.machine.output x.1, x.2.takeOutput.2) := by
  unfold reply
  rw [h]
  rfl

theorem reply_unparsed {s : Session} {line : String} {e : ParseError}
    (h : Line.read line = .program line)
    (he : Program.ofTokens s.limits.grammarRoom s.limits.maxNesting (.ofSource line) = .error e) :
    (reply s line).1 = conclude s.machine.output (.error (s.parseFailure e)) := by
  obtain ⟨hx, houtput, -⟩ :=
    unparsed he (runKept line) (List.mem_cons_of_mem _ (List.mem_singleton_self _))
  rw [reply_program s h]
  simp only [hx, houtput]

theorem conclude_stop (out : String) (x : Except Failure Value) : (conclude out x).stop = false := by
  unfold conclude
  split
  · rfl
  · rfl
  · split <;> rfl

theorem conclude_failure {out : String} {x : Except Failure Value} {f : Failure}
    (h : (conclude out x).failure = some f) : x = .error f ∧ f.diagnostic? = none := by
  unfold conclude at h
  split at h
  · cases h
  · cases h
  · split at h
    · cases h
    · obtain rfl := Option.some.inj h
      exact ⟨rfl, by assumption⟩

theorem conclude_diagnostic (out : String) {f : Failure} {d : Diagnostic}
    (h : f.diagnostic? = some d) :
    conclude out (.error f) = ⟨false, out, d.format ++ "\n", none⟩ := by
  unfold conclude
  simp only [h]

theorem conclude_sameResult {ρ : Pairing} (out : String) {x y : Except Failure Value}
    (h : SameResult ρ x y) : conclude out x = conclude out y := by
  cases h with
  | failure f => rfl
  | value hv =>
    have htext := hv.text
    cases hv with
    | nil => rfl
    | _ =>
      unfold conclude
      simp only [htext]

structure Ready (new s : Session) : Prop where
  precedes : new.Precedes s
  sound : s.Sound
  output : s.machine.output = ""

namespace Ready

variable {new s : Session}

theorem start (limits : Limits) (blank : List Limit) (clock : Clock) :
    Ready (Session.start limits blank clock) (Session.start limits blank clock) :=
  ⟨.refl _, sound_start limits blank clock, rfl⟩

theorem reply (h : Ready new s) (line : String) : Ready new (reply s line).2 := by
  rcases read_cases line with ⟨c, -, hread⟩ | ⟨-, hread⟩ | ⟨-, -, hread⟩
  · unfold Shell.reply
    rw [hread]
    cases c with
    | reset => exact ⟨h.precedes.trans (.reset s), h.sound.reset, h.output⟩
    | _ => exact h
  · unfold Shell.reply
    rw [hread]
    exact h
  · rw [reply_program s hread]
    have htaken : (runKept line s).2.Precedes (runKept line s).2.takeOutput.2 :=
      .of_later (m := { (runKept line s).2.machine with output := "" }) (.refl _) (fun h => h.1)
        (runKept line s).2.events
    exact ⟨(h.precedes.trans (.runKept s line)).trans htaken, (h.sound.runKept line).takeOutput, rfl⟩

theorem replies (h : Ready new s) (lines : List String) : Ready new (replies s lines).2 := by
  induction lines generalizing s with
  | nil => exact h
  | cons line lines ih => exact ih (h.reply line)

end Ready

theorem reply_sameGlobals {s t : Session} (h : s.SameGlobals t) (hs : s.machine.output = "")
    (ht : t.machine.output = "") (line : String) :
    (reply s line).1 = (reply t line).1 ∧ (reply s line).2.SameGlobals (reply t line).2 ∧
      (reply s line).2.machine.output = "" ∧ (reply t line).2.machine.output = "" := by
  rcases read_cases line with ⟨c, -, hread⟩ | ⟨-, hread⟩ | ⟨-, -, hread⟩
  · unfold reply
    rw [hread]
    cases c with
    | reset => exact ⟨rfl, h.reset, hs, ht⟩
    | _ => exact ⟨rfl, h, hs, ht⟩
  · unfold reply
    rw [hread]
    exact ⟨rfl, h, hs, ht⟩
  · rw [reply_program s hread, reply_program t hread]
    refine ⟨?_, (h.runKept line).2.takeOutput, rfl, rfl⟩
    obtain ⟨ρ, hρ, htwin⟩ := h
    obtain ⟨hresult, ⟨out, hout, hout'⟩, -⟩ := htwin.runKept hρ line
    rw [hs] at hout
    rw [ht] at hout'
    simp only
    rw [hout, hout']
    exact conclude_sameResult _ hresult

theorem replies_sameGlobals {s t : Session} (h : s.SameGlobals t) (hs : s.machine.output = "")
    (ht : t.machine.output = "") (lines : List String) : (replies s lines).1 = (replies t lines).1 := by
  induction lines generalizing s t with
  | nil => rfl
  | cons line lines ih =>
    obtain ⟨hreply, hsame, houts, houtt⟩ := reply_sameGlobals h hs ht line
    exact List.cons_eq_cons.mpr ⟨hreply, ih hsame houts houtt⟩

theorem reply_stop (s : Session) (line : String) :
    let word := String.ofList (Text.strip line.toList)
    (reply s line).1.stop = true ↔ word = "exit" ∨ word = "EOF" := by
  intro word
  rcases read_cases line with ⟨c, hword, hread⟩ | ⟨hword, hread⟩ | ⟨hword, -, hread⟩
  · replace hword : word = c.word := hword
    unfold reply
    rw [hread, hword]
    cases c <;> simp [Command.word]
  · replace hword : word = "" := hword
    unfold reply
    rw [hread, hword]
    simp
  · rw [reply_program s hread, conclude_stop]
    refine iff_of_false Bool.false_ne_true ?_
    rintro (hexit | hend)
    · exact hword (List.mem_map.mpr ⟨.exit, by decide, hexit.symm⟩)
    · exact hword (List.mem_map.mpr ⟨.endOfFile, by decide, hend.symm⟩)

theorem reply_failure {s : Session} {line : String} {f : Failure}
    (h : (reply s line).1.failure = some f) : (runKept line s).1 = .error f ∧ f.diagnostic? = none := by
  rcases read_cases line with ⟨c, -, hread⟩ | ⟨-, hread⟩ | ⟨-, -, hread⟩
  · unfold reply at h
    rw [hread] at h
    cases c <;> cases h
  · unfold reply at h
    rw [hread] at h
    cases h
  · rw [reply_program s hread] at h
    exact conclude_failure h

theorem kept_reply_program (s : Session) {line : String} (h : Line.read line = .program line) :
    (reply s line).2.kept =
      ((runKept line s).2.kept.1, { (runKept line s).2.kept.2 with output := "" }) := by
  rw [reply_program s h]
  exact kept_takeOutput _

theorem read_reset {line : String} (h : String.ofList (Text.strip line.toList) = "reset") :
    Line.read line = .command .reset := by
  rcases read_cases line with ⟨c, hc, hread⟩ | ⟨hempty, -⟩ | ⟨hnone, -, -⟩
  · have hreset : c.word = Command.reset.word := hc.symm.trans h
    cases c <;> first | exact hread | simp [Command.word] at hreset
  · exact absurd (hempty.symm.trans h) (by decide)
  · exact absurd (List.mem_map.mpr ⟨.reset, by decide, h.symm⟩) hnone

namespace Ready

variable {new s : Session} (h : Ready new s) (hblank : new.blank = []) {line : String}
  (hread : Line.read line = .program line)

include h hblank

theorem escapes {f : Failure} (hf : (Shell.reply s line).1.failure = some f) (hends : f ≠ .endless) :
    f = .numberTooLarge ∧ Lexeme.MeetsTooLarge line := by
  obtain ⟨hx, hnone⟩ := reply_failure hf
  rcases h.sound.failure_runKept (h.precedes.blank.trans hblank) hx hends with ⟨d, hd⟩ | htooLarge
  · rw [hd] at hnone
    cases hnone
  · exact htooLarge

include hread

theorem tells {f : Failure} (hf : (runKept line s).1 = .error f) (hends : f ≠ .endless)
    (hsize : f ≠ .numberTooLarge) :
    ∃ d printed, f.diagnostic? = some d ∧
      (runKept line s).2.machine.output = s.machine.output ++ printed ∧
      (Shell.reply s line).1 = ⟨false, printed, d.format ++ "\n", none⟩ := by
  have hfailure := h.sound.failure_runKept (h.precedes.blank.trans hblank) hf hends
  obtain ⟨d, hd⟩ := hfailure.resolve_right fun h => hsize h.1
  refine ⟨d, (runKept line s).2.machine.output, hd, ?_, ?_⟩
  · rw [h.output, String.empty_append]
  · rw [reply_program s hread, hf]
    exact conclude_diagnostic _ hd

theorem keeps_unparsed {e : ParseError}
    (he : Program.ofTokens s.limits.grammarRoom s.limits.maxNesting (.ofSource line) = .error e) :
    (runKept line s).1 = .error e.failure ∧ (Shell.reply s line).2.kept = s.kept := by
  obtain ⟨hx, -, hkept⟩ :=
    unparsed he (runKept line) (List.mem_cons_of_mem _ (List.mem_singleton_self _))
  rw [parseFailure_of_set (h.precedes.blank.trans hblank)] at hx
  have houtput : s.kept.2.output = "" := (output_kept s).trans h.output
  rw [kept_reply_program s hread, hkept, ← houtput]
  exact ⟨hx, rfl⟩

theorem keeps_failed {p : Program}
    (hp : Program.ofTokens s.limits.grammarRoom s.limits.maxNesting (.ofSource line) = .ok p)
    {f : Failure} (hf : (runKept line s).1 = .error f) :
    ∃ before node behind v m n stop, p.statements = before ++ node :: behind ∧
      Program.run s.limits before s.kept.1 s.kept.2 = (.ok v, m) ∧
      node.evaluate s.limits s.kept.1 m = (.error stop, n) ∧
      f = stop.failure ∧ (Shell.reply s line).2.kept = (s.kept.1, { n with output := "" }) := by
  obtain ⟨events, hx⟩ := runKept_apply s hp
  obtain ⟨-, hstop⟩ := h.sound.run_kept hp
  have hkept := kept_reply_program s hread
  rcases hrun : Program.run s.limits p.statements s.kept.1 s.kept.2 with ⟨stop | v, n⟩
  all_goals
    rw [hrun] at hx hstop
    rw [hx] at hf hkept
  · obtain ⟨before, node, behind, v, m, hsplit, hbefore, hnode⟩ := Program.runFrom_error hrun
    have hlocated := (hstop stop rfl).1
    refine ⟨before, node, behind, v, m, n, stop, hsplit, hbefore, ?_, ?_, hkept⟩
    · refine hnode.resolve_right fun hreturn => ?_
      rw [hreturn] at hlocated
      exact hlocated.1
    · rw [← stopFailure_of_set (h.precedes.blank.trans hblank)]
      exact (Except.error.inj hf).symm
  · cases hf

end Ready

/-- Whatever lines the shell of a new session has been given, it replies to the next one. What comes up
outside of the program, if its evaluation ends, is a literal that is too large. The replies to all further
lines depend on what the root scope binds. -/
theorem reply_survives (limits : Limits) (clock : Clock) (lines : List String) (line : String) :
    let new := Session.start limits []
    let s := (replies (new clock) lines).2
    let word := String.ofList (Text.strip line.toList)
    let r := reply s line
    let x := runKept line s
    (r.1.stop = true ↔ word = "exit" ∨ word = "EOF") ∧
    (∀ f, r.1.failure = some f → f ≠ .endless → f = .numberTooLarge ∧ Lexeme.MeetsTooLarge line) ∧
    (word ∉ Command.all.map Command.word → word ≠ "" →
      r = (conclude x.2.machine.output x.1, x.2.takeOutput.2) ∧
      (∀ f, x.1 = .error f → f ≠ .endless → f ≠ .numberTooLarge →
        ∃ d printed, f.diagnostic? = some d ∧
          x.2.machine.output = s.machine.output ++ printed ∧
          r.1 = ⟨false, printed, d.format ++ "\n", none⟩) ∧
      (∀ e, Program.ofTokens limits.grammarRoom limits.maxNesting (.ofSource line) = .error e →
        x.1 = .error e.failure ∧ r.2.kept = s.kept) ∧
      ∀ p, Program.ofTokens limits.grammarRoom limits.maxNesting (.ofSource line) = .ok p →
        ∀ f, x.1 = .error f →
          ∃ before node behind v m n stop, p.statements = before ++ node :: behind ∧
            Program.run limits before s.kept.1 s.kept.2 = (.ok v, m) ∧
            node.evaluate limits s.kept.1 m = (.error stop, n) ∧
            f = stop.failure ∧ r.2.kept = (s.kept.1, { n with output := "" })) ∧
    (∀ t : Session, s.SameGlobals t → t.machine.output = "" →
      ∀ more, (replies s more).1 = (replies t more).1) ∧
    (word = "reset" → ∀ more,
      (replies r.2 more).1 = (replies (new r.2.machine.clock) more).1) := by
  intro new s word r x
  have hs : Ready (new clock) s := Ready.replies (.start limits [] clock) lines
  have hlimits : s.limits = limits := hs.precedes.limits
  refine ⟨reply_stop s line, fun f => hs.escapes rfl, fun hword hne => ?_, fun t h ht more => ?_,
    fun hword more => ?_⟩
  · have hread : Line.read line = .program line := read_program hword hne
    rw [← hlimits]
    exact ⟨reply_program s hread, fun f => hs.tells rfl hread, fun e => hs.keeps_unparsed rfl hread,
      fun p hp f => hs.keeps_failed rfl hread hp⟩
  · exact replies_sameGlobals h hs.output ht more
  · have hr : r.2 = s.reset := by
      simp only [r, reply, read_reset hword]
    have hreset : (new clock).Precedes s.reset := hs.precedes.trans (.reset s)
    rw [hr]
    exact replies_sameGlobals (hreset.sameGlobals rfl rfl) hs.output rfl more

theorem ofTokens_tooLarge {digits : List Char} (hne : digits ≠ [])
    (hdigits : digits.takeWhile Lexeme.isHexDigit = digits)
    (hlarge : 2 ^ 1024 - 2 ^ 970 ≤ Number.ofDigits 16 digits) (room : Nat) (maxNesting : Int) :
    Program.ofTokens room maxNesting (.ofSource (.ofList ('0' :: 'x' :: digits))) =
      .error (.scan .overflow) := by
  have hnone : Number.ofHex? digits = none := Number.nearestFinite?_eq_none.mpr hlarge
  have hlexeme : Lexeme.read '0' ('x' :: digits) = .overflow ('0' :: 'x' :: digits) := by
    change Lexeme.hex ['0', 'x'] digits = _
    unfold Lexeme.hex
    simp only [hdigits, hnone]
    cases digits with
    | nil => exact absurd rfl hne
    | cons d ds => rfl
  have hgap : Lexeme.splitGap false [] (Scanner.ofSource (.ofList ('0' :: 'x' :: digits))).rest =
      ([], '0' :: 'x' :: digits) := by
    rw [Scanner.ofSource, String.toList_ofList]
    rfl
  have hstream : TokenStream.ofSource (.ofList ('0' :: 'x' :: digits)) = ⟨[], some .overflow⟩ := by
    unfold TokenStream.ofSource
    rw [Scanner.stream_of_unfinished rfl, Scanner.passGap_eq hgap]
    simp only [Scanner.step, hlexeme]
  rw [hstream]
  rfl

/-- A line that raises: nothing is written, and what comes up is no error of the program. -/
theorem reply_tooLarge :
    (reply (Session.start {} [] (0 : Float)) (.ofList ('0' :: 'x' :: '1' :: List.replicate 256 '0'))).1 =
      ⟨false, "", "", some .numberTooLarge⟩ := by
  have hread : Line.read (.ofList ('0' :: 'x' :: '1' :: List.replicate 256 '0')) = .program _ :=
    read_of_head (c := '0') (by rw [String.toList_ofList]; rfl) (by decide)
  have hparse : Program.ofTokens 10000 128
      (.ofSource (.ofList ('0' :: 'x' :: '1' :: List.replicate 256 '0'))) = .error (.scan .overflow) :=
    ofTokens_tooLarge (List.cons_ne_nil _ _) (by decide +kernel) (by decide +kernel) 10000 128
  exact reply_unparsed (s := Session.start {} [] (0 : Float)) hread hparse

end Shell

end Scriptlet
