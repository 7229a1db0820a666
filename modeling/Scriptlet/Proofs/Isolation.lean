import Scriptlet.Proofs.SameGlobals

/-!
What the calls on a session leave behind for later ones: the bindings of the root scope that is kept,
and nothing else. Counters, frames and values by number that earlier calls have used up, failed ones
too, cannot be told from those of a new session.
-/

namespace Scriptlet

namespace Session

inductive Call
  | run (source : String)
  | runKept (source : String)
  | parse (source : String)
  | lookup (x : String)
  | reset
  /-- The calls inside a block, up to its end or to a failure that leaves it. Behind the block the root
  scope is forgotten. -/
  | block (calls : List Call)

namespace Call

mutual

def after (s : Session) : Call → Session
  | run source => (Session.run source s).2
  | runKept source => (Session.runKept source s).2
  | parse source => (Session.parse source s).2
  | lookup x => (Session.lookup x s).2
  | reset => s.reset
  | block calls => (afterAll s calls).reset

def afterAll (s : Session) : List Call → Session
  | [] => s
  | c :: calls => afterAll (c.after s) calls

end

/-- A call that binds nothing in the root scope that is kept: it runs a source by itself, fails to parse
one, or only looks. -/
def Passive (limits : Limits) : Call → Prop
  | run _ | parse _ | lookup _ => True
  | runKept source =>
    ∃ e, Program.ofTokens limits.grammarRoom limits.maxNesting (.ofSource source) = .error e
  | reset | block _ => False

theorem after_block_runKept (s : Session) (source : String) :
    (block [runKept source]).after s = (runLast source s).2 := by
  rw [runLast_eq]
  rfl

end Call

def withClock (s : Session) (clock : Clock) : Session :=
  { s with machine := { s.machine with clock } }

theorem kept_withClock (s : Session) (clock : Clock) :
    (s.withClock clock).kept = (s.kept.1, { s.kept.2 with clock }) := by
  unfold kept
  cases hglobals : s.globals <;> simp [withClock, hglobals, Machine.openRoot]

theorem rooted_withClock (s : Session) (clock : Clock) : (s.withClock clock).Rooted ↔ s.Rooted := by
  unfold Rooted
  rw [kept_withClock]

theorem bindings_withClock (s : Session) (clock : Clock) :
    (s.withClock clock).bindings = s.bindings := by
  unfold bindings
  rw [kept_withClock]

structure Precedes (s t : Session) : Prop where
  limits : t.limits = s.limits
  blank : t.blank = s.blank
  known : s.machine.known.Within t.machine.known
  rooted : s.Rooted → t.Rooted
  grounded : s.Grounded → t.Grounded

namespace Precedes

variable {s t u : Session} {m : Machine}

theorem refl (s : Session) : s.Precedes s :=
  ⟨rfl, rfl, .refl _, id, id⟩

theorem trans (h : s.Precedes t) (h' : t.Precedes u) : s.Precedes u :=
  ⟨h'.limits.trans h.limits, h'.blank.trans h.blank, h.known.trans h'.known,
    h'.rooted ∘ h.rooted, h'.grounded ∘ h.grounded⟩

theorem reset (s : Session) : s.Precedes s.reset :=
  ⟨rfl, rfl, .refl _, fun _ => rooted_of_none rfl, fun h => ⟨h.1, nofun⟩⟩

theorem of_later (hknown : s.machine.known.Within m.known)
    (hgrounded : s.Grounded → m.Grounded) (events : Array Event) :
    s.Precedes { s with machine := m, events } := by
  refine ⟨rfl, rfl, hknown, fun hs => ?_, fun hs => ⟨hgrounded hs, fun scope hscope => ?_⟩⟩
  · cases hglobals : s.globals with
    | none => exact rooted_of_none rfl
    | some scope =>
      obtain ⟨a, hscope, ha⟩ := hs
      unfold kept at hscope ha
      rw [hglobals] at hscope ha
      exact ⟨a, hscope, (hknown.address ⟨rfl, ha⟩).2⟩
  · exact Pairing.scope_imp hknown (hs.2 scope hscope)

theorem of_kept (hknown : s.kept.2.known.Within m.known)
    (hgrounded : s.Grounded → m.Grounded) (events : Array Event) :
    s.Precedes { s with machine := m, globals := some s.kept.1, events } := by
  refine ⟨rfl, rfl, (known_kept s).trans hknown,
    fun ⟨a, hscope, ha⟩ => ?_, fun hs => ⟨hgrounded hs, ?_⟩⟩
  · exact ⟨a, hscope, (hknown.address ⟨rfl, ha⟩).2⟩
  · rintro _ ⟨⟩
    exact Pairing.scope_imp hknown hs.kept.2

theorem run (s : Session) (source : String) : s.Precedes (run source s).2 := by
  obtain ⟨events, hrun⟩ := run_eq s source
  rw [hrun]
  cases hp : Program.ofTokens s.limits.grammarRoom s.limits.maxNesting (.ofSource source) with
  | error e => exact of_later (.refl _) (fun hs => hs.1) events
  | ok p =>
    have hlater := Program.later_run s.limits p.statements s.machine.openRoot.1 s.machine.openRoot.2
    have hopen := s.machine.later_openRoot
    refine of_later (hopen.known.trans hlater.known) (fun hs => ?_) events
    obtain ⟨hroot, hscope⟩ := hs.1.openRoot
    have hstatements := Program.like_of_ofTokens (ρ := s.machine.openRoot.2.known) hp fun _ => rfl
    exact (Program.grounds_run s.limits hroot hscope hstatements).grounded

theorem runKept (s : Session) (source : String) : s.Precedes (runKept source s).2 := by
  obtain ⟨events, hrun⟩ := runKept_eq s source
  rw [hrun]
  cases hp : Program.ofTokens s.limits.grammarRoom s.limits.maxNesting (.ofSource source) with
  | error e => exact of_kept (.refl _) (fun hs => hs.kept.1) events
  | ok p =>
    have hlater := Program.later_run s.limits p.statements s.kept.1 s.kept.2
    refine of_kept hlater.known (fun hs => ?_) events
    obtain ⟨hmachine, hscope⟩ := hs.kept
    have hstatements := Program.like_of_ofTokens (ρ := s.kept.2.known) hp fun _ => rfl
    exact (Program.grounds_run s.limits hmachine hscope hstatements).grounded

theorem parse (s : Session) (source : String) : s.Precedes (parse source s).2 := by
  rw [parse_apply]
  cases Program.ofTokens s.limits.grammarRoom s.limits.maxNesting (.ofSource source) with
  | error e => exact .refl s
  | ok p => exact of_later (.refl _) (fun hs => hs.1) _

theorem lookup (s : Session) (x : String) : s.Precedes (lookup x s).2 := by
  rw [lookup_apply]
  exact of_kept (.refl _) (fun hs => hs.kept.1) s.events

theorem withClock (s : Session) (clock : Clock) : s.Precedes (s.withClock clock) :=
  of_later (m := { s.machine with clock }) (.refl _) (fun hs => hs.1) s.events

mutual

theorem after (s : Session) (c : Call) : s.Precedes (c.after s) := by
  cases c with
  | run source => exact run s source
  | runKept source => exact runKept s source
  | parse source => exact parse s source
  | lookup x => exact lookup s x
  | reset => exact reset s
  | block calls => exact (afterAll s calls).trans (reset _)
termination_by structural c

theorem afterAll (s : Session) (calls : List Call) : s.Precedes (Call.afterAll s calls) := by
  cases calls with
  | nil => exact .refl s
  | cons c calls => exact (after s c).trans (afterAll _ calls)
termination_by structural calls

end

end Precedes

theorem Precedes.sameGlobals {s t : Session} (h : s.Precedes t) (hs : s.globals = none)
    (ht : t.globals = none) : t.SameGlobals (s.withClock t.machine.clock) := by
  have hs' : (s.withClock t.machine.clock).globals = none := hs
  exact sameGlobals_of_plain h.limits h.blank rfl (rooted_of_none ht) (rooted_of_none hs')
    ((bindings_of_none ht).trans (bindings_of_none hs').symm) (plain_of_none ht)

theorem globals_run (s : Session) (source : String) : (run source s).2.globals = s.globals := by
  obtain ⟨events, hrun⟩ := run_eq s source
  rw [hrun]
  cases Program.ofTokens s.limits.grammarRoom s.limits.maxNesting (.ofSource source) <;> rfl

theorem frame_run (s : Session) (source : String) {a : Address} (ha : a < s.machine.store.fresh) :
    (run source s).2.machine.store.frame a = s.machine.store.frame a := by
  obtain ⟨events, hrun⟩ := run_eq s source
  rw [hrun]
  cases hp : Program.ofTokens s.limits.grammarRoom s.limits.maxNesting (.ofSource source) with
  | error e => rfl
  | ok p =>
    have hroot : s.machine.store.fresh < s.reset.kept.2.store.fresh :=
      Nat.lt_of_lt_of_eq (Nat.lt_succ_self _) (Store.fresh_push _ _).symm
    have hplain := plain_of_none (s := s.reset) rfl _ (List.mem_singleton_self _)
    have htwin := twin_of_plain (s := s.reset) (t := s.reset) rfl rfl rfl rfl hroot rfl hroot rfl hplain
    -- The root scope is a new frame, so that none of the others is paired.
    refine ((htwin.paired rfl hp).spares a ?_).trans ?_
    · rintro a' (⟨rfl, -⟩ | ⟨k, rfl, -⟩)
      · exact Nat.lt_irrefl _ ha
      · exact Nat.not_lt.mpr (Nat.le_add_right _ k) (Nat.lt_trans ha hroot)
    · exact (s.machine.store.frame_push _ a).trans (if_neg (Nat.ne_of_lt ha))

theorem bindings_run {s : Session} (hs : s.Rooted) (source : String) :
    (run source s).2.bindings = s.bindings := by
  have hglobals := globals_run s source
  cases hscope : s.globals with
  | none => rw [bindings_of_none hscope, bindings_of_none (hglobals.trans hscope)]
  | some scope =>
    obtain ⟨a, ha, hlt⟩ := hs
    unfold bindings kept at *
    rw [hscope] at ha hlt
    rw [hglobals, hscope]
    obtain rfl : scope = [a] := ha
    exact congrArg (fun f => [f]) (frame_run s source hlt)

structure Undisturbed (s t : Session) : Prop extends Precedes s t where
  bindings : s.Rooted → t.bindings = s.bindings
  globals : ∀ scope ∈ s.globals, t.globals = some scope
  frames : ∀ a < s.machine.store.fresh, t.machine.store.frame a = s.machine.store.frame a

namespace Undisturbed

variable {s t u : Session}

theorem refl (s : Session) : s.Undisturbed s :=
  ⟨.refl s, fun _ => rfl, fun _ => id, fun _ _ => rfl⟩

theorem trans (h : s.Undisturbed t) (h' : t.Undisturbed u) : s.Undisturbed u where
  toPrecedes := h.toPrecedes.trans h'.toPrecedes
  bindings hs := (h'.bindings (h.rooted hs)).trans (h.bindings hs)
  globals scope hscope := h'.globals scope (h.globals scope hscope)
  frames a ha := (h'.frames a (h.known.address ⟨rfl, ha⟩).2).trans (h.frames a ha)

theorem run (s : Session) (source : String) : s.Undisturbed (run source s).2 where
  toPrecedes := .run s source
  bindings hs := bindings_run hs source
  globals _ hscope := (globals_run s source).trans hscope
  frames _ ha := frame_run s source ha

theorem parse (s : Session) (source : String) : s.Undisturbed (parse source s).2 := by
  refine ⟨.parse s source, fun _ => ?_, fun scope hscope => ?_, fun a _ => ?_⟩
  all_goals
    rw [parse_apply]
    cases Program.ofTokens s.limits.grammarRoom s.limits.maxNesting (.ofSource source)
  all_goals first | rfl | exact hscope

theorem root (s : Session) (events : Array Event) :
    s.Undisturbed { s with machine := s.kept.2, globals := some s.kept.1, events } := by
  refine ⟨.of_kept (.refl _) (fun hs => hs.kept.1) events, fun _ => rfl, fun scope hscope => ?_,
    fun a ha => ?_⟩
  · exact congrArg some (congrArg Prod.fst (kept_of_some hscope))
  · cases hglobals : s.globals with
    | none =>
      simp only [kept_of_none hglobals]
      exact (s.machine.store.frame_push _ a).trans (if_neg (Nat.ne_of_lt ha))
    | some scope => simp only [kept_of_some hglobals]

theorem lookup (s : Session) (x : String) : s.Undisturbed (lookup x s).2 := by
  rw [lookup_apply]
  exact root s s.events

theorem unparsed {source : String} {e : ParseError}
    (he : Program.ofTokens s.limits.grammarRoom s.limits.maxNesting (.ofSource source) = .error e) :
    s.Undisturbed (runKept source s).2 := by
  obtain ⟨events, hrun⟩ := runKept_eq s source
  rw [hrun, he]
  exact root s events

theorem after {c : Call} (hc : c.Passive s.limits) : s.Undisturbed (c.after s) := by
  cases c with
  | run source => exact run s source
  | runKept source =>
    obtain ⟨e, he⟩ := hc
    exact unparsed he
  | parse source => exact parse s source
  | lookup x => exact lookup s x
  | reset => exact hc.elim
  | block calls => exact hc.elim

theorem afterAll {calls : List Call} (hcalls : ∀ c ∈ calls, c.Passive s.limits) :
    s.Undisturbed (Call.afterAll s calls) := by
  induction calls generalizing s with
  | nil => exact refl s
  | cons c calls ih =>
    obtain ⟨hc, hcalls⟩ := List.forall_mem_cons.mp hcalls
    have hafter := after hc
    rw [← hafter.limits] at hcalls
    exact hafter.trans (ih hcalls)

theorem withClock (h : s.Undisturbed t) (clock : Clock) : (s.withClock clock).Undisturbed t where
  limits := h.limits
  blank := h.blank
  known := h.known
  rooted hs := h.rooted ((rooted_withClock s clock).mp hs)
  grounded hs := h.grounded hs
  bindings hs := (h.bindings ((rooted_withClock s clock).mp hs)).trans (bindings_withClock s clock).symm
  globals := h.globals
  frames := h.frames

theorem sameGlobals (h : s.Undisturbed t) (hclock : t.machine.clock = s.machine.clock)
    (hs : s.Grounded) : s.SameGlobals t := by
  cases hscope : s.globals with
  | none =>
    have hrooted := rooted_of_none hscope
    exact sameGlobals_of_plain h.limits.symm h.blank.symm hclock.symm hrooted (h.rooted hrooted)
      (h.bindings hrooted).symm (plain_of_none hscope)
  | some scope =>
    obtain ⟨hn, hi⟩ := Pairing.bounds_of_within h.known
    have hwithin : s.machine.known.Within (.resumed hn hi) := ⟨fun h => h, .inl, .inl⟩
    refine ⟨.resumed hn hi, rfl, h.limits.symm, h.blank.symm, ?_, ⟨?_, ?_⟩, ?_, ?_⟩
    all_goals rw [kept_of_some hscope, kept_of_some (h.globals scope hscope)]
    · exact Pairing.scope_imp hwithin (hs.2 scope hscope)
    · rintro a _ (⟨rfl, ha⟩ | ⟨k, rfl, rfl⟩)
      · rw [h.frames a ha]
        exact (hs.1 a).imp fun _ _ hb => ⟨hb.1, hb.2.imp hwithin⟩
      · rw [Store.frame_of_fresh_le _ (Nat.le_add_right _ k),
          Store.frame_of_fresh_le _ (Nat.le_add_right _ k)]
        exact .nil
    · exact fun k => .inr ⟨k, rfl, rfl⟩
    · exact fun k => .inr ⟨k, rfl, rfl⟩
    · exact hclock.symm

end Undisturbed

theorem unparsed {s : Session} {source : String} {e : ParseError}
    (he : Program.ofTokens s.limits.grammarRoom s.limits.maxNesting (.ofSource source) = .error e) :
    ∀ call ∈ [run source, runKept source], (call s).1 = .error (s.parseFailure e) ∧
      (call s).2.machine.output = s.machine.output ∧ (call s).2.kept = s.kept := by
  obtain ⟨events, hrun⟩ := run_eq s source
  obtain ⟨events', hkept⟩ := runKept_eq s source
  rw [he] at hrun hkept
  refine List.forall_mem_cons.mpr ⟨?_, List.forall_mem_singleton.mpr ?_⟩
  · rw [hrun]
    exact ⟨rfl, rfl, rfl⟩
  · rw [hkept]
    exact ⟨rfl, output_kept s, rfl⟩

/-- Whatever has been called on a session, in failure or not, a source that is run by itself answers as in
a new one and changes no frame that is there. Of earlier calls only the bindings of the root scope that is
kept make a difference, and those are gone once it is forgotten. Sessions are compared with the same
readings of the clock to come. -/
theorem isolated (limits : Limits) (blank : List Limit) (clock : Clock) (history : List Call) :
    let new := start limits blank
    let s := Call.afterAll (new clock) history
    (∀ source, AnswersAlike (run source) s (new s.machine.clock) ∧
      (run source s).2.globals = s.globals ∧
      (run source s).2.bindings = s.bindings ∧
      ∀ a < s.machine.store.fresh,
        (run source s).2.machine.store.frame a = s.machine.store.frame a) ∧
    (∀ calls last, ∀ t ∈ [s.reset, (Call.block calls).after s, (runLast last s).2],
      t.SameGlobals (new t.machine.clock) ∧
        ∀ source, AnswersAlike (runKept source) t (new t.machine.clock)) ∧
    (∀ source e,
      Program.ofTokens limits.grammarRoom limits.maxNesting (.ofSource source) = .error e →
      ∀ call ∈ [run source, runKept source], (call s).1 = .error (s.parseFailure e) ∧
        (call s).2.machine.output = s.machine.output ∧ (call s).2.kept = s.kept) ∧
    (∀ calls : List Call, (∀ c ∈ calls, c.Passive limits) →
      let t := Call.afterAll s calls
      (s.withClock t.machine.clock).SameGlobals t) ∧
    ∀ clock' history',
      let t := Call.afterAll (new clock') history'
      let s := s.withClock t.machine.clock
      (s.bindings = t.bindings → (∀ f ∈ s.bindings, ∀ b ∈ f, b.2.Plain) → s.SameGlobals t) ∧
        (s.SameGlobals t → ((names s).1 = (names t).1 ∧ ∀ x, AnswersAlike (lookup x) s t) ∧
          ∀ source, AnswersAlike (runKept source) s t ∧
            (runKept source s).2.SameGlobals (runKept source t).2) := by
  intro new s
  have hs : (new clock).Precedes s := .afterAll (new clock) history
  have hforgotten {t : Session} (ht : s.Precedes t) (hglobals : t.globals = none) :
      t.SameGlobals (new t.machine.clock) ∧
        ∀ source, AnswersAlike (runKept source) t (new t.machine.clock) := by
    have hsame : t.SameGlobals (new t.machine.clock) := (hs.trans ht).sameGlobals rfl hglobals
    exact ⟨hsame, fun source => (hsame.runKept source).1⟩
  have hgrounded : s.Grounded := hs.grounded ⟨Machine.grounded_initial clock, nofun⟩
  refine ⟨fun source => ⟨?_, globals_run s source, ?_, fun a ha => frame_run s source ha⟩, ?_, ?_,
    fun calls hcalls => ?_, ?_⟩
  · obtain ⟨hresult, out, hout, hout'⟩ := (hforgotten (.reset s) rfl).2 source
    obtain ⟨hvalue, houtput⟩ := run_as_kept s source
    obtain ⟨hvalue', houtput'⟩ := run_as_kept (new s.machine.clock) source
    rw [← hvalue] at hresult
    exact ⟨hresult.trans (congrArg _ hvalue'.symm), out, houtput.trans hout, houtput'.trans hout'⟩
  · exact bindings_run (hs.rooted (rooted_of_none rfl)) source
  · intro calls last
    refine List.forall_mem_cons.mpr ⟨hforgotten (.reset s) rfl, List.forall_mem_cons.mpr
      ⟨hforgotten (.after s (.block calls)) rfl, List.forall_mem_singleton.mpr ?_⟩⟩
    rw [← Call.after_block_runKept]
    exact hforgotten (.after s (.block [.runKept last])) rfl
  · intro source e he
    refine unparsed ?_
    rwa [hs.limits]
  · have hlimits : s.limits = limits := hs.limits
    rw [← hlimits] at hcalls
    intro t
    have hundisturbed : s.Undisturbed t := .afterAll hcalls
    have hclock := Precedes.withClock s t.machine.clock
    exact (hundisturbed.withClock _).sameGlobals rfl (hclock.grounded hgrounded)
  · intro clock' history' t s'
    have ht : (new clock').Precedes t := .afterAll (new clock') history'
    have hs' : (new clock).Precedes s' := hs.trans (.withClock s t.machine.clock)
    constructor
    · exact sameGlobals_of_plain (hs'.limits.trans ht.limits.symm) (hs'.blank.trans ht.blank.symm)
        rfl (hs'.rooted (rooted_of_none rfl)) (ht.rooted (rooted_of_none rfl))
    · exact fun hsame => ⟨hsame.shows, hsame.runKept⟩

end Session

end Scriptlet
