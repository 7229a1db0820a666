import Scriptlet.Proofs.GroundedMachines
import Scriptlet.Proofs.JoinedSessions

namespace Scriptlet

def Pairing.inStep (ρ : Pairing) : Pairing :=
  { ρ with
    steps := Eq
    steps_succ := Pairing.identity.steps_succ }

theorem Pairing.bounds_of_within {n n' i i' : Nat} (h : (below n i).Within (below n' i')) :
    n ≤ n' ∧ i ≤ i' :=
  ⟨Nat.not_lt.mp fun hlt => Nat.lt_irrefl n' (h.address ⟨rfl, hlt⟩).2,
    Nat.not_lt.mp fun hlt => Nat.lt_irrefl i' (h.id ⟨rfl, hlt⟩).2⟩

theorem unique_resumed {rel : Nat → Nat → Prop} {n n' a a' b b' : Nat}
    (hbound : ∀ {a a'}, rel a a' → a < n ∧ a' < n')
    (hunique : ∀ {a a' b b'}, rel a a' → rel b b' → (a = b ↔ a' = b'))
    (h : rel a a' ∨ ∃ k, a = n + k ∧ a' = n' + k) (h' : rel b b' ∨ ∃ k, b = n + k ∧ b' = n' + k) :
    a = b ↔ a' = b' := by
  rcases h with h | ⟨k, rfl, rfl⟩ <;> rcases h' with h' | ⟨l, rfl, rfl⟩
  · exact hunique h h'
  · have hlt := hbound h
    omega
  · have hlt := hbound h'
    omega
  · omega

def Pairing.resume (ρ : Pairing) (n n' i i' : Nat)
    (hn : ∀ {a a'}, ρ.address a a' → a < n ∧ a' < n')
    (hi : ∀ {j j'}, ρ.id j j' → j < i ∧ j' < i') : Pairing :=
  { ρ with
    address := fun a a' => ρ.address a a' ∨ ∃ k, a = n + k ∧ a' = n' + k
    id := fun j j' => ρ.id j j' ∨ ∃ k, j = i + k ∧ j' = i' + k
    address_unique := unique_resumed hn ρ.address_unique
    id_unique := unique_resumed hi ρ.id_unique }

def Pairing.single (a a' : Address) : Pairing :=
  { Pairing.identity with
    address := fun b b' => b = a ∧ b' = a'
    id := fun _ _ => False
    address_unique := fun h h' => iff_of_true (h.1.trans h'.1.symm) (h.2.trans h'.2.symm)
    id_unique := fun h => h.elim }

def Pairing.rooted {a a' n n' : Address} (ha : a < n) (ha' : a' < n') (i i' : Nat) : Pairing :=
  (single a a').resume n n' i i' (fun ⟨h, h'⟩ => ⟨h ▸ ha, h' ▸ ha'⟩) False.elim

def Pairing.resumed {n n' i i' : Nat} (hn : n ≤ n') (hi : i ≤ i') : Pairing :=
  (below n i).resume n n' i i' (fun ⟨h, hlt⟩ => ⟨hlt, h ▸ Nat.lt_of_lt_of_le hlt hn⟩)
    (fun ⟨h, hlt⟩ => ⟨hlt, h ▸ Nat.lt_of_lt_of_le hlt hi⟩)

def Value.Plain (v : Value) : Prop :=
  v.IsLiteral ∨ ∃ b, v = .builtin b

theorem Value.Plain.like {ρ : Pairing} {v : Value} (h : v.Plain) : v.Like ρ v := by
  rcases h with h | ⟨b, rfl⟩
  · exact .of_isLiteral h
  · exact .builtin b

inductive SameResult (ρ : Pairing) : Except Failure Value → Except Failure Value → Prop
  | value {v v' : Value} (h : v.Like ρ v') : SameResult ρ (.ok v) (.ok v')
  | failure (f : Failure) : SameResult ρ (.error f) (.error f)

theorem SameResult.text_eq {ρ : Pairing} {x x' : Except Failure Value} (h : SameResult ρ x x') :
    x.map Value.text = x'.map Value.text := by
  cases h with
  | value h => exact congrArg Except.ok h.text
  | failure f => rfl

section

variable {ρ : Pairing} (hρ : ρ.position = Eq)

include hρ

theorem Failure.Like.eq {f f' : Failure} (h : f.Like ρ f') : f = f' := by
  cases h with
  | diagnosed _ _ hp | sourceTooDeep _ _ hp | callsTooDeep _ _ hp =>
    rw [hρ] at hp
    rw [hp]
  | _ => rfl

theorem ComesAlike.sameResult {x x' : Except Failure Value} (h : ComesAlike ρ x x') :
    SameResult ρ x x' := by
  cases h with
  | value hv => exact .value hv
  | failure hf =>
    rw [hf.eq hρ]
    exact .failure _

end

namespace Session

structure AnswersAlike (e : SessionM Value) (s t : Session) : Prop where
  result : (e s).1.map Value.text = (e t).1.map Value.text
  output : ∃ out, (e s).2.machine.output = s.machine.output ++ out ∧
    (e t).2.machine.output = t.machine.output ++ out

/-- Sessions with the same settings whose root scopes bind the same names in the same order to values
that no program can tell apart: some pairing of frames and of numbers makes them twins. -/
def SameGlobals (s t : Session) : Prop :=
  ∃ ρ : Pairing, ρ.position = Eq ∧ s.Twin ρ t

def bindings (s : Session) : List Frame :=
  s.kept.1.map s.kept.2.store.frame

theorem run_eq (s : Session) (source : String) :
    ∃ events, run source s =
      match Program.ofTokens s.limits.grammarRoom s.limits.maxNesting (.ofSource source) with
      | .error e => (.error (s.parseFailure e), { s with events })
      | .ok p =>
        let x := Program.run s.limits p.statements s.machine.openRoot.1 s.machine.openRoot.2
        (x.1.mapError s.stopFailure, { s with machine := x.2, events }) :=
  runWith_apply newRoot Machine.openRoot (fun _ => rfl) source s

theorem run_as_kept (s : Session) (source : String) :
    (run source s).1 = (runKept source s.reset).1 ∧
      (run source s).2.machine.output = (runKept source s.reset).2.machine.output := by
  obtain ⟨events, hrun⟩ := run_eq s source
  obtain ⟨events', hkept⟩ := runKept_eq s.reset source
  have hlimits : s.reset.limits = s.limits := rfl
  rw [hlimits] at hkept
  cases hp : Program.ofTokens s.limits.grammarRoom s.limits.maxNesting (.ofSource source)
  all_goals
    rw [hp] at hrun hkept
    rw [hrun, hkept]
    exact ⟨rfl, rfl⟩

theorem tryCatch_apply (e : SessionM Value) (handle : Failure → SessionM Value) (s : Session) :
    (tryCatch e handle : SessionM Value) s =
      match e s with
      | (.ok v, s') => (.ok v, s')
      | (.error f, s') => handle f s' := by
  change ExceptT.tryCatch e handle s = _
  unfold ExceptT.tryCatch ExceptT.mk
  change StateT.bind e _ s = _
  unfold StateT.bind
  change (match e s with | (_, _) => _ : Id _) = _
  rcases e s with ⟨f | v, s'⟩ <;> rfl

theorem runLast_eq (s : Session) (source : String) :
    runLast source s = ((runKept source s).1, (runKept source s).2.reset) := by
  unfold runLast
  rw [bind_apply, tryCatch_apply]
  rcases runKept source s with ⟨f | v, s'⟩ <;> rfl

namespace Twin

variable {ρ : Pairing} {s t : Session}

theorem parseFailure (h : s.Twin ρ t) : s.parseFailure = t.parseFailure := by
  unfold Session.parseFailure
  rw [h.blank]

theorem paired (hρ : ρ.position = Eq) (h : s.Twin ρ t) {room : Nat} {N : Int} {ts : TokenStream}
    {p : Program} (hp : Program.ofTokens room N ts = .ok p) :
    let τ := (ρ.onward s.machine.output t.machine.output).inStep
    Paired τ (Value.Like τ) { s.kept.2 with steps := 0, depth := 0 }
      (Program.run s.limits p.statements s.kept.1 s.kept.2)
      (Program.run t.limits p.statements t.kept.1 t.kept.2) := by
  intro τ
  rw [← h.limits]
  have hsame : (ρ.onward s.machine.output t.machine.output).Within τ :=
    ⟨fun h => h, fun h => h, fun h => h⟩
  have hmachine : { s.kept.2 with steps := 0, depth := 0 }.Like τ
      { t.kept.2 with steps := 0, depth := 0 } :=
    ⟨h.machine.store.imp hsame fun h => h, h.machine.made, h.machine.output, rfl, rfl, h.clock⟩
  have hstatements : List.Forall₂ (Node.Like τ) p.statements p.statements :=
    List.forall₂_same.mpr (Program.like_of_ofTokens hp fun _ => hρ ▸ rfl)
  exact Program.parallel_runFrom (ρ := τ) (.inr fun _ _ => id) h.scope hstatements .nil _ _ hmachine

theorem runKept (hρ : ρ.position = Eq) (h : s.Twin ρ t) (source : String) :
    let x := runKept source s
    let y := runKept source t
    SameResult ρ x.1 y.1 ∧
      (∃ out, x.2.machine.output = s.machine.output ++ out ∧
        y.2.machine.output = t.machine.output ++ out) ∧
      x.2.Twin ρ y.2 := by
  intro x y
  obtain ⟨events, hx⟩ := runKept_eq s source
  obtain ⟨events', hy⟩ := runKept_eq t source
  cases hp : Program.ofTokens s.limits.grammarRoom s.limits.maxNesting (.ofSource source) with
  | error e =>
    have hp' := hp
    rw [h.limits] at hp'
    rw [hp] at hx
    rw [hp', ← h.parseFailure] at hy
    replace hx : x = _ := hx
    replace hy : y = _ := hy
    rw [hx, hy]
    refine ⟨.failure _, ⟨"", ?_, ?_⟩, h.limits, h.blank, h.scope, h.store, h.made, h.clock⟩
    · rw [String.append_empty, output_kept]
    · rw [String.append_empty, output_kept]
  | ok p =>
    have hp' := hp
    rw [h.limits] at hp'
    rw [hp] at hx
    rw [hp', ← h.stopFailure] at hy
    replace hx : x = _ := hx
    replace hy : y = _ := hy
    obtain ⟨hends, hmachine, -⟩ := h.paired hρ hp
    let τ := (ρ.onward s.machine.output t.machine.output).inStep
    have hwithin : τ.Within ρ := ⟨fun h => h, fun h => h, fun h => h⟩
    rw [hx, hy]
    have halike := (hends.imp hwithin).comesAlike fun _ _ => like_stopFailure s
    exact ⟨halike.sameResult hρ, hmachine.output,
      h.behind hwithin (fun h => h) h.scope hmachine events events'⟩

end Twin

theorem SameGlobals.runKept {s t : Session} (h : s.SameGlobals t) (source : String) :
    AnswersAlike (runKept source) s t ∧ (runKept source s).2.SameGlobals (runKept source t).2 := by
  obtain ⟨ρ, hρ, htwin⟩ := h
  obtain ⟨hresult, hout, htwin'⟩ := htwin.runKept hρ source
  exact ⟨⟨hresult.text_eq, hout⟩, ρ, hρ, htwin'⟩

theorem SameGlobals.shows {s t : Session} (h : s.SameGlobals t) :
    (names s).1 = (names t).1 ∧ ∀ x, AnswersAlike (lookup x) s t := by
  obtain ⟨ρ, hρ, htwin⟩ := h
  refine ⟨htwin.names_eq, fun x => ⟨((htwin.lookup_alike x).sameResult hρ).text_eq, "", ?_, ?_⟩⟩
  all_goals
    rw [lookup_apply, String.append_empty]
    exact output_kept _

def Rooted (s : Session) : Prop :=
  ∃ a, s.kept.1 = [a] ∧ a < s.kept.2.store.fresh

def Grounded (s : Session) : Prop :=
  s.machine.Grounded ∧ ∀ scope ∈ s.globals, s.machine.known.scope scope scope

theorem Grounded.kept {s : Session} (h : s.Grounded) :
    s.kept.2.Grounded ∧ s.kept.2.known.scope s.kept.1 s.kept.1 := by
  unfold Session.kept
  cases hglobals : s.globals with
  | none => exact h.1.openRoot
  | some scope => exact ⟨h.1, h.2 scope hglobals⟩

theorem known_kept (s : Session) : s.machine.known.Within s.kept.2.known := by
  unfold Session.kept
  split
  · exact .refl _
  · exact s.machine.later_openRoot.known

theorem clock_kept (s : Session) : s.kept.2.clock = s.machine.clock := by
  unfold kept
  split <;> rfl

theorem twin_of_plain {s t : Session} (hlimits : s.limits = t.limits) (hblank : s.blank = t.blank)
    (hclock : s.machine.clock = t.machine.clock) {a a' : Address} (hs : s.kept.1 = [a])
    (ha : a < s.kept.2.store.fresh) (ht : t.kept.1 = [a']) (ha' : a' < t.kept.2.store.fresh)
    (hframe : s.kept.2.store.frame a = t.kept.2.store.frame a')
    (hplain : ∀ b ∈ s.kept.2.store.frame a, b.2.Plain) :
    s.Twin (.rooted ha ha' s.kept.2.made t.kept.2.made) t where
  limits := hlimits
  blank := hblank
  scope := by
    rw [hs, ht]
    exact .cons (.inl ⟨rfl, rfl⟩) .nil
  store := by
    refine ⟨?_, fun k => .inr ⟨k, rfl, rfl⟩⟩
    rintro _ _ (⟨rfl, rfl⟩ | ⟨k, rfl, rfl⟩)
    · rw [← hframe]
      exact List.forall₂_same.mpr fun b hb => ⟨rfl, (hplain b hb).like⟩
    · rw [Store.frame_of_fresh_le _ (Nat.le_add_right _ k),
        Store.frame_of_fresh_le _ (Nat.le_add_right _ k)]
      exact .nil
  made k := .inr ⟨k, rfl, rfl⟩
  clock := by rw [clock_kept, clock_kept, hclock]

theorem sameGlobals_of_plain {s t : Session} (hlimits : s.limits = t.limits)
    (hblank : s.blank = t.blank) (hclock : s.machine.clock = t.machine.clock) (hs : s.Rooted)
    (ht : t.Rooted) (hbindings : s.bindings = t.bindings)
    (hplain : ∀ f ∈ s.bindings, ∀ b ∈ f, b.2.Plain) : s.SameGlobals t := by
  obtain ⟨a, hscope, ha⟩ := hs
  obtain ⟨a', hscope', ha'⟩ := ht
  unfold bindings at hbindings hplain
  rw [hscope, hscope'] at hbindings
  rw [hscope] at hplain
  have hframe := (List.cons.inj hbindings).1
  exact ⟨_, rfl, twin_of_plain hlimits hblank hclock hscope ha hscope' ha' hframe
    (hplain _ (List.mem_singleton_self _))⟩

theorem kept_of_some {s : Session} {scope : Scope} (h : s.globals = some scope) :
    s.kept = (scope, s.machine) := by
  unfold kept
  rw [h]

section

variable {s : Session} (hs : s.globals = none)

include hs

theorem kept_of_none : s.kept = s.machine.openRoot := by
  unfold kept
  rw [hs]

theorem rooted_of_none : s.Rooted := by
  refine ⟨s.machine.store.fresh, ?_, ?_⟩
  all_goals rw [kept_of_none hs]
  · rfl
  · exact Nat.lt_of_lt_of_eq (Nat.lt_succ_self _) (Store.fresh_push _ _).symm

theorem bindings_of_none : s.bindings = [Builtin.all.map fun b => (b.name, .builtin b)] := by
  unfold bindings
  rw [kept_of_none hs]
  exact congrArg (fun f => [f]) ((s.machine.store.frame_push _ _).trans (if_pos rfl))

theorem plain_of_none : ∀ f ∈ s.bindings, ∀ b ∈ f, b.2.Plain := by
  intro f hf b hb
  rw [bindings_of_none hs] at hf
  obtain rfl := List.mem_singleton.mp hf
  obtain ⟨builtin, -, rfl⟩ := List.mem_map.mp hb
  exact .inr ⟨builtin, rfl⟩

end

end Session

end Scriptlet
