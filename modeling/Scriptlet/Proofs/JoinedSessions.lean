import Scriptlet.Proofs.CallDepth
import Scriptlet.Proofs.JoinedPrograms
import Scriptlet.Proofs.ParallelTrees
import Scriptlet.Proofs.SourceErrors

namespace Scriptlet

def Pairing.onward (ρ : Pairing) (o o' : String) : Pairing :=
  { ρ with
    steps := fun _ _ => True
    output := fun s s' => ∃ t, s = o ++ t ∧ s' = o' ++ t
    steps_succ := fun _ => trivial
    output_append := by
      rintro _ _ u ⟨t, rfl, rfl⟩
      exact ⟨t ++ u, String.append_assoc, String.append_assoc⟩ }

theorem Pairing.within_onward (ρ : Pairing) (o o' : String) : ρ.Within (ρ.onward o o') :=
  ⟨fun h => h, fun h => h, fun h => h⟩

theorem Pairing.onward_within (ρ : Pairing) (o o' : String) : (ρ.onward o o').Within ρ :=
  ⟨fun h => h, fun h => h, fun h => h⟩

def Pairing.orDown (ρ : Pairing) (lines : Nat) : Pairing :=
  { ρ with
    position := fun p p' => ρ.position p p' ∨ p' = p.map (·.down lines)
    position_none := .inl ρ.position_none
    position_isSome := by
      rintro p _ (h | rfl)
      · exact ρ.position_isSome h
      · rw [Option.isSome_map] }

theorem Pairing.within_orDown (ρ : Pairing) (lines : Nat) : ρ.Within (ρ.orDown lines) :=
  ⟨.inl, fun h => h, fun h => h⟩

namespace Program

variable {ρ : Pairing} {limits : Limits} {e e' : Scope} {m m' : Machine}

theorem run_eq (limits : Limits) (ns : List Node) (e : Scope) (m : Machine) :
    run limits ns e m = runFrom limits e .nil ns { m with steps := 0, depth := 0 } := rfl

theorem runFrom_append (limits : Limits) (e : Scope) (last : Value) (ns ms : List Node) :
    runFrom limits e last (ns ++ ms) =
      (runFrom limits e last ns >>= fun v => runFrom limits e v ms) := by
  induction ns generalizing last with
  | nil => rfl
  | cons n ns ih =>
    funext m
    rw [List.cons_append, runFrom, runFrom, Evaluation.bind_apply, Evaluation.bind_apply,
      Evaluation.bind_apply]
    rcases n.evaluate limits e m with ⟨stop | v, m'⟩
    · rfl
    · cases v with
      | returned v => rfl
      | _ =>
        simp only
        rw [ih, Evaluation.bind_apply]

theorem runFrom_of_ne_nil {ns : List Node} (hns : ns ≠ []) (v w : Value) :
    runFrom limits e v ns = runFrom limits e w ns := by
  cases ns with
  | nil => exact absurd rfl hns
  | cons n ns => rfl

theorem like_of_ofTokens {room : Nat} {N : Int} {s : TokenStream} {p : Program}
    (h : ofTokens room N s = .ok p) (hρ : ∀ p, ρ.position p p) :
    ∀ n ∈ p.statements, n.Like ρ n := by
  obtain ⟨_, _, us, -, -, hformed⟩ := formed_of_ofTokens h
  exact fun n hn => (hformed n hn).like hρ

theorem likes_orDown {room : Nat} {N : Int} {s : TokenStream} {p : Program} {lines : Nat}
    {ns : List Node} (h : ofTokens room N s = .ok p)
    (hns : List.Forall₂ (Node.Like (.down lines)) p.statements ns) :
    List.Forall₂ (Node.Like (ρ.orDown lines)) p.statements ns := by
  obtain ⟨_, _, us, -, -, hformed⟩ := formed_of_ofTokens h
  have hboth := (List.forall₂_and_left _ _).mpr ⟨hformed, hns⟩
  exact hboth.imp fun _ _ h => h.1.like_imp h.2 .inr

theorem parallel_apart {σ : Pairing} (hmax : limits.maxSteps = none) (hσ : ρ.Within σ)
    (haddress : ∀ {a a'}, σ.address a a' → ρ.address a a')
    (houtput : ∀ {o o'}, ρ.output o o' → σ.output o o') (hsteps : ∀ n n', σ.steps n n')
    (he : ρ.scope e e')
    (hm : { m with steps := 0, depth := 0 }.Like ρ { m' with steps := 0, depth := 0 })
    {ns ms ms' : List Node} (hns : List.Forall₂ (Node.Like ρ) ns ns)
    (hms : List.Forall₂ (Node.Like σ) ms ms') (hne : ms ≠ []) :
    let x := run limits ns e m
    let y := run limits (ns ++ ms') e' m'
    (∀ stop, x.1 = .error stop →
      (∃ stop', y.1 = .error stop' ∧ stop.Like ρ stop') ∧ x.2.Like ρ y.2) ∧
    ∀ v, x.1 = .ok v →
      let z := run limits ms e x.2
      Ends σ (Value.Like σ) z.1 y.1 ∧ z.2.Like σ y.2 := by
  intro x y
  obtain ⟨hends, hmachine, -⟩ := parallel_runFrom (.inl hmax) he hns .nil _ _ hm
  replace hends : Ends ρ (Value.Like ρ) x.1 (run limits ns e' m').1 := hends
  replace hmachine : x.2.Like ρ (run limits ns e' m').2 := hmachine
  have hdepth : (run limits ns e' m').2.depth = 0 := (later_run limits ns e' m').depth
  have hy : y = _ := congrFun (runFrom_append limits e' .nil ns ms') { m' with steps := 0, depth := 0 }
  rw [Evaluation.bind_apply, ← run_eq] at hy
  rcases hright : run limits ns e' m' with ⟨r, n⟩
  rw [hright] at hends hmachine hdepth hy
  refine ⟨fun stop hstop => ?_, fun v hv => ?_⟩
  · rw [hstop] at hends
    cases hends with
    | stop hlike =>
      rw [hy]
      exact ⟨⟨_, rfl, hlike⟩, hmachine⟩
  · intro z
    rw [hv] at hends
    cases hends with
    | @value _ v' hlike =>
      -- The second run counts from zero again, while the joined one counts on.
      have hsecond : { x.2 with steps := 0, depth := 0 }.Like σ n := by
        have himp := hmachine.imp hσ haddress houtput fun _ => hsteps _ _
        exact { himp with steps := hsteps _ _, depth := hdepth.symm }
      have hms' : ms' ≠ [] := by
        rintro rfl
        cases hms
        exact hne rfl
      obtain ⟨hends', hmachine', -⟩ := parallel_runFrom (.inl hmax) (he.imp fun _ _ => hσ.address)
        hms .nil _ _ hsecond
      rw [hy]
      simp only
      rw [runFrom_of_ne_nil hms' v' .nil]
      exact ⟨hends', hmachine'⟩

end Program

theorem Store.Like.describeWithin {ρ : Pairing} {s s' : Store} (h : s.Like ρ s') {e e' : Scope}
    (he : ρ.scope e e') (room : Nat) : s.describeWithin room e = s'.describeWithin room e' := by
  have hlevel {a a' : Address} (ha : ρ.address a a') :
      Store.describeWithin.level s a = Store.describeWithin.level s' a' :=
    congrArg _ (h.frames ha).names
  induction room generalizing e e' with
  | zero => rfl
  | succ room ih =>
    rcases he with _ | ⟨ha, _ | ⟨hb, he⟩⟩
    · rfl
    · simp only [Store.describeWithin, hlevel ha]
    · simp only [Store.describeWithin, hlevel ha, ih (.cons hb he)]

theorem Store.Like.describe {ρ : Pairing} {s s' : Store} (h : s.Like ρ s') {e e' : Scope}
    (he : ρ.scope e e') : s.describe e = s'.describe e' := by
  unfold Store.describe
  rw [h.describeWithin he, List.Forall₂.length_eq he]

namespace Session

def kept (s : Session) : Scope × Machine :=
  match s.globals with
  | some scope => (scope, s.machine)
  | none => s.machine.openRoot

theorem root_apply (s : Session) :
    root s = (.ok s.kept.1, { s with machine := s.kept.2, globals := some s.kept.1 }) := by
  obtain ⟨limits, blank, machine, globals, events⟩ := s
  cases globals <;> rfl

theorem lookup_apply (s : Session) (x : String) :
    lookup x s =
      ((Evaluation.lookup s.kept.1 x { s.kept.2 with steps := 0, depth := 0 }).1.mapError s.stopFailure,
        { s with machine := s.kept.2, globals := some s.kept.1 }) := by
  unfold lookup
  rw [bind_apply, root_apply]
  simp only
  rw [evaluation_apply]
  unfold Evaluation.lookup
  cases s.kept.2.store.get? s.kept.1 x <;> rfl

theorem output_kept (s : Session) : s.kept.2.output = s.machine.output := by
  unfold kept
  split <;> rfl

theorem runKept_eq (s : Session) (source : String) :
    ∃ events, runKept source s =
      match Program.ofTokens s.limits.grammarRoom s.limits.maxNesting (.ofSource source) with
      | .error e => (.error (s.parseFailure e),
          { s with machine := s.kept.2, globals := some s.kept.1, events })
      | .ok p =>
        let x := Program.run s.limits p.statements s.kept.1 s.kept.2
        (x.1.mapError s.stopFailure, { s with machine := x.2, globals := some s.kept.1, events }) := by
  let rooted : Session := { s with machine := s.kept.2, globals := some s.kept.1 }
  have hrooted : runKept source s = runWith (pure s.kept.1) source rooted := by
    unfold runKept
    rw [bind_apply, root_apply]
  rw [hrooted]
  exact runWith_apply (pure s.kept.1) (fun m => (s.kept.1, m)) (fun _ => rfl) source rooted

theorem runKept_apply (s : Session) {source : String} {p : Program}
    (hp : Program.ofTokens s.limits.grammarRoom s.limits.maxNesting (.ofSource source) = .ok p) :
    let x := Program.run s.limits p.statements s.kept.1 s.kept.2
    ∃ events, runKept source s =
      (x.1.mapError s.stopFailure, { s with machine := x.2, globals := some s.kept.1, events }) := by
  obtain ⟨events, hrun⟩ := runKept_eq s source
  rw [hp] at hrun
  exact ⟨events, hrun⟩

theorem like_stopFailure {ρ : Pairing} (s : Session) {stop stop' : Stop} (h : stop.Like ρ stop') :
    (s.stopFailure stop).Like ρ (s.stopFailure stop') := by
  unfold stopFailure
  cases h with
  | error fault hp =>
    cases fault with
    | stepLimit limit =>
      simp only
      split
      · exact .blankLimit _
      · exact (Stop.Like.error (.stepLimit limit) hp).failure
    | _ => exact (Stop.Like.error _ hp).failure
  | unknownOperator op => exact .unknownOperator op
  | exhausted => exact Stop.Like.exhausted.failure
  | endless => exact .endless

structure Twin (ρ : Pairing) (s t : Session) : Prop where
  limits : s.limits = t.limits
  blank : s.blank = t.blank
  scope : ρ.scope s.kept.1 t.kept.1
  store : s.kept.2.store.Like ρ t.kept.2.store
  made (k : Nat) : ρ.id (s.kept.2.made + k) (t.kept.2.made + k)
  clock : s.kept.2.clock = t.kept.2.clock

namespace Twin

variable {ρ σ τ : Pairing} {s t : Session} {e e' : Scope} {m m' : Machine}

theorem machine (h : s.Twin ρ t) :
    { s.kept.2 with steps := 0, depth := 0 }.Like (ρ.onward s.machine.output t.machine.output)
      { t.kept.2 with steps := 0, depth := 0 } where
  store := h.store.imp (ρ.within_onward _ _) fun h => h
  made := h.made
  output := ⟨"", by rw [output_kept, String.append_empty], by rw [output_kept, String.append_empty]⟩
  steps := trivial
  depth := rfl
  clock := h.clock

theorem stopFailure (h : s.Twin ρ t) : s.stopFailure = t.stopFailure := by
  unfold Session.stopFailure
  rw [h.blank]

theorem behind (h : s.Twin ρ t) (hwithin : τ.Within σ)
    (haddress : ∀ {a a'}, σ.address a a' → τ.address a a') (he : σ.scope e e') (hm : m.Like τ m')
    (events events' : Array Event) :
    Twin σ { s with machine := m, globals := some e, events }
      { t with machine := m', globals := some e', events := events' } :=
  ⟨h.limits, h.blank, he, hm.store.imp hwithin haddress, fun k => hwithin.id (hm.made k), hm.clock⟩

theorem identity (s : Session) : s.Twin .identity s where
  limits := rfl
  blank := rfl
  scope := List.forall₂_same.mpr fun _ _ => rfl
  store := s.kept.2.store.like_self Pairing.reflexive_identity fun h => h
  made _ := rfl
  clock := rfl

theorem names_eq (h : s.Twin ρ t) : (names s).1 = (names t).1 := by
  have hnames (s : Session) : (names s).1 = .ok (s.kept.2.store.describe s.kept.1) := by
    unfold names
    rw [bind_apply, root_apply]
    rfl
  rw [hnames, hnames, h.store.describe h.scope]

theorem lookup_alike (h : s.Twin ρ t) (x : String) : ComesAlike ρ (lookup x s).1 (lookup x t).1 := by
  let τ := ρ.onward s.machine.output t.machine.output
  have hends := (parallel_lookup (ρ := τ) h.scope x _ _ h.machine).ends
  rw [lookup_apply, lookup_apply, h.stopFailure]
  exact (hends.imp (ρ.onward_within _ _)).comesAlike fun _ _ => like_stopFailure t

end Twin

/-- Two sources that are run one after the other do in one session what both do as one source in its twin,
if the first one ends with a semicolon. A failure that comes later than the first source has the place
that its statement has in the joined one. -/
theorem runKept_joined {ρ : Pairing} (hρ : ρ.position = Eq) {s t : Session} (h : s.Twin ρ t)
    (hmax : s.limits.maxSteps = none) {source source' : String} {p q : Program}
    (hp : Program.ofTokens s.limits.grammarRoom s.limits.maxNesting (.ofSource source) = .ok p)
    (hq : Program.ofTokens s.limits.grammarRoom s.limits.maxNesting (.ofSource source') = .ok q)
    (hlast : (TokenStream.ofSource source).lastKind? = some (.symbol .semicolon))
    (hne : q.statements ≠ []) :
    let lines := source.toList.count '\n' + 1
    let joined := source ++ "\n" ++ source'
    let first := runKept source s
    let x := (runKept source >>= fun _ => runKept source') s
    let y := runKept joined t
    ∃ ns, Program.ofTokens s.limits.grammarRoom s.limits.maxNesting (.ofSource joined) =
        .ok ⟨p.statements ++ ns⟩ ∧
      List.Forall₂ (Node.Like (.down lines)) q.statements ns ∧
      ComesAlike (ρ.orDown lines) x.1 y.1 ∧
      x.2.Twin (ρ.orDown lines) y.2 ∧
      (∃ out, x.2.machine.output = s.machine.output ++ out ∧
        y.2.machine.output = t.machine.output ++ out) ∧
      (∀ f, first.1 = .error f → ∃ f', y.1 = .error f' ∧ f.Like ρ f') ∧
      ∀ v, first.1 = .ok v →
        let z := Program.run s.limits ns first.2.kept.1 first.2.kept.2
        ComesAlike ρ (z.1.mapError s.stopFailure) y.1 := by
  intro lines joined first x y
  obtain ⟨ns, hjoined, hns⟩ := Program.ofTokens_joined hp hq hlast hne
  refine ⟨ns, hjoined, hns, ?_⟩
  let τ := ρ.onward s.machine.output t.machine.output
  have hτ : ∀ p, τ.position p p := fun _ => hρ ▸ rfl
  have hps : List.Forall₂ (Node.Like τ) p.statements p.statements :=
    List.forall₂_same.mpr (Program.like_of_ofTokens hp hτ)
  have hqs : List.Forall₂ (Node.Like (τ.orDown lines)) q.statements ns := Program.likes_orDown hq hns
  have hmoved : List.Forall₂ (Node.Like τ) ns ns :=
    List.forall₂_same.mpr fun n hn =>
      Program.like_of_ofTokens hjoined hτ n (List.mem_append_right _ hn)
  have hne' : ns ≠ [] := fun hnil =>
    hne (List.length_eq_zero_iff.mp (hns.length_eq.trans (congrArg List.length hnil)))
  obtain ⟨hstop, hvalue⟩ := Program.parallel_apart hmax (τ.within_orDown lines) (fun h => h)
    (fun h => h) (fun _ _ => trivial) h.scope h.machine hps hqs hne
  obtain ⟨-, hplace⟩ := Program.parallel_apart (σ := τ) hmax ⟨fun h => h, fun h => h, fun h => h⟩
    (fun h => h) (fun h => h) (fun _ _ => trivial) h.scope h.machine hps hmoved hne'
  obtain ⟨events, hfirst⟩ := runKept_apply s hp
  obtain ⟨events', hy⟩ := runKept_apply t (h.limits ▸ hjoined)
  rw [← h.stopFailure, ← congrArg (Program.run · _ _ _) h.limits] at hy
  have hx : x = _ := bind_apply _ _ s
  rw [hfirst] at hx
  replace hfirst : first = _ := hfirst
  rw [hfirst]
  change y = _ at hy
  generalize Program.run s.limits (p.statements ++ ns) t.kept.1 t.kept.2 = b at hstop hvalue hplace hy
  rcases hrun : Program.run s.limits p.statements s.kept.1 s.kept.2 with ⟨stop | v, m⟩
  · rw [hrun] at hx hstop
    obtain ⟨⟨stop', hb, hlike⟩, hmachine⟩ := hstop stop rfl
    replace hx : x = (.error (s.stopFailure stop), _) := hx
    rw [hx, hy, hb]
    have hwithin : τ.Within (ρ.orDown lines) := ⟨.inl, fun h => h, fun h => h⟩
    refine ⟨.failure (like_stopFailure s (hlike.imp hwithin)),
      h.behind hwithin (fun h => h) h.scope hmachine events events', hmachine.output, ?_, nofun⟩
    intro f hf
    obtain rfl := Except.error.inj hf
    exact ⟨_, rfl, like_stopFailure s (hlike.imp (ρ.onward_within _ _))⟩
  · rw [hrun] at hx hvalue hplace
    replace hx : x = runKept source' { s with machine := m, globals := some s.kept.1, events } := hx
    obtain ⟨events₂, hsecond⟩ :=
      runKept_apply { s with machine := m, globals := some s.kept.1, events } hq
    obtain ⟨hends, hmachine⟩ := hvalue v rfl
    have hsame : (τ.orDown lines).Within (ρ.orDown lines) := (ρ.orDown lines).onward_within _ _
    rw [hx, hsecond, hy]
    refine ⟨(hends.imp hsame).comesAlike fun _ _ => like_stopFailure s,
      h.behind hsame (fun h => h) h.scope hmachine events₂ events', hmachine.output, nofun, ?_⟩
    intro _ _
    exact ((hplace v rfl).1.imp (ρ.onward_within _ _)).comesAlike fun _ _ => like_stopFailure s

theorem runKept_joined_variable :
    let s := start {} [] (0 : Float)
    let source := "var x = nil;"
    s.Twin .identity s ∧ ∃ p q,
      Program.ofTokens s.limits.grammarRoom s.limits.maxNesting (.ofSource source) = .ok p ∧
      Program.ofTokens s.limits.grammarRoom s.limits.maxNesting (.ofSource "x") = .ok q ∧
      (TokenStream.ofSource source).lastKind? = some (.symbol .semicolon) ∧ q.statements ≠ [] ∧
      ComesAlike (Pairing.identity.orDown (source.toList.count '\n' + 1))
        ((runKept source >>= fun _ => runKept "x") s).1 (runKept (source ++ "\n" ++ "x") s).1 := by
  intro s source
  have hsource : TokenStream.ofSource "var x = nil;" =
      ⟨[⟨.keyword .varWord, "var", ⟨1, 1⟩, 0, none⟩, ⟨.identifier, "x", ⟨1, 5⟩, 4, none⟩,
        ⟨.symbol .equal, "=", ⟨1, 7⟩, 6, none⟩, ⟨.keyword .nilWord, "nil", ⟨1, 9⟩, 8, none⟩,
        ⟨.symbol .semicolon, ";", ⟨1, 12⟩, 11, none⟩, .endOfInput ⟨1, 13⟩ 12], none⟩ := by
    unfold TokenStream.ofSource Scanner.ofSource
    rw [show "var x = nil;".toList = ['v', 'a', 'r', ' ', 'x', ' ', '=', ' ', 'n', 'i', 'l', ';'] from rfl]
    iterate 6 rw [Scanner.stream_step rfl rfl]
    rw [Scanner.stream_finished rfl]
    rfl
  have hsource' : TokenStream.ofSource "x" =
      ⟨[⟨.identifier, "x", ⟨1, 1⟩, 0, none⟩, .endOfInput ⟨1, 2⟩ 1], none⟩ := by
    unfold TokenStream.ofSource Scanner.ofSource
    rw [show "x".toList = ['x'] from rfl]
    iterate 2 rw [Scanner.stream_step rfl rfl]
    rw [Scanner.stream_finished rfl]
    rfl
  have hp : Program.ofTokens 10000 128 (.ofSource "var x = nil;") =
      .ok ⟨[.declareVar (some ⟨1, 1⟩) "x" (.literal (some ⟨1, 9⟩) .nil)]⟩ := by
    rw [hsource]
    rfl
  have hq : Program.ofTokens 10000 128 (.ofSource "x") =
      .ok ⟨[.expression (some ⟨1, 1⟩) (.name (some ⟨1, 1⟩) "x")]⟩ := by
    rw [hsource']
    rfl
  have hlast : (TokenStream.ofSource "var x = nil;").lastKind? = some (.symbol .semicolon) := by
    rw [hsource]
    rfl
  have hne : [Node.expression (some ⟨1, 1⟩) (.name (some ⟨1, 1⟩) "x")] ≠ [] := nofun
  obtain ⟨_, -, -, hresult, -⟩ := runKept_joined rfl (.identity s) rfl hp hq hlast hne
  exact ⟨.identity s, _, _, hp, hq, hlast, hne, hresult⟩

end Session

end Scriptlet
