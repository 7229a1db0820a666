import Scriptlet.Proofs.Simulation

/-!
A limit on steps brings every program to an end. Nothing is repeated without a step in between: a turn
of a loop evaluates its condition, and what is called has a node of its own. So the steps that are left
bound the nodes inside each other and the turns of every loop, and more room and more patience than
that change nothing.
-/

namespace Scriptlet

namespace Evaluation

variable {α β : Type} {limit n least : Nat}

inductive Spends (limit least : Nat) (m : Machine) : Except Stop α × Machine → Prop
  | ok {a : α} {k : Machine} (hleast : m.steps + least ≤ k.steps) (hk : k.steps ≤ limit) :
      Spends limit least m (.ok a, k)
  | error {s : Stop} {k : Machine} (hs : ¬s.Unfinished) (hk : k.steps ≤ limit + 1) :
      Spends limit least m (.error s, k)

def WithinSteps (limit n least : Nat) (e e' : Evaluation α) : Prop :=
  ∀ m, m.steps ≤ limit → limit ≤ m.steps + n → e m = e' m ∧ Spends limit least m (e m)

namespace WithinSteps

theorem mono {e e' : Evaluation α} (h : WithinSteps limit n least e e') {k less : Nat} (hk : k ≤ n)
    (hless : less ≤ least) : WithinSteps limit k less e e' := by
  intro m hm hleft
  obtain ⟨heq, hspends⟩ := h m hm (by omega)
  refine ⟨heq, ?_⟩
  generalize e m = x at hspends
  cases hspends with
  | ok hleast hsteps => exact .ok (by omega) hsteps
  | error hs hsteps => exact .error hs hsteps

theorem of_plain {e : Evaluation α} (he : Plain e) : WithinSteps limit n 0 e e := by
  intro m hm _
  obtain ⟨-, hsteps, hstop⟩ := he m
  refine ⟨rfl, ?_⟩
  rcases hx : e m with ⟨s | a, k⟩
  all_goals rw [hx] at hsteps hstop
  all_goals simp only at hsteps
  · exact .error (fun hs => hstop s rfl hs.overLimit) (by omega)
  · exact .ok (by omega) (by omega)

theorem countStep (limit : Int) (n : Nat) (pos : Option Position) :
    WithinSteps limit.toNat n 1 (countStep (some limit) pos) (countStep (some limit) pos) := by
  refine fun m hm _ => ⟨rfl, ?_⟩
  rw [countStep_some]
  split
  · exact .error id (Nat.succ_le_succ hm)
  · have hle : m.steps + 1 ≤ limit.toNat := by omega
    exact .ok (Nat.le_refl _) hle

theorem bind {e e' : Evaluation α} {f f' : α → Evaluation β} (he : WithinSteps limit n least e e')
    (hf : ∀ k, n = k + least → ∀ a, WithinSteps limit k 0 (f a) (f' a)) :
    WithinSteps limit n least (e >>= f) (e' >>= f') := by
  intro m hm hleft
  obtain ⟨heq, hspends⟩ := he m hm hleft
  rw [bind_apply, bind_apply, ← heq]
  generalize e m = x at hspends
  cases hspends with
  | error hs hsteps => exact ⟨rfl, .error hs hsteps⟩
  | @ok a k hleast hsteps =>
    obtain ⟨heq', hspends'⟩ := hf (n - least) (by omega) a k hsteps (by omega)
    refine ⟨heq', ?_⟩
    change Spends limit least m (f a k)
    generalize f a k = y at hspends'
    cases hspends' with
    | ok hleast' hsteps' => exact .ok (by omega) hsteps'
    | error hs hsteps' => exact .error hs hsteps'

theorem mapStop {f : Stop → Stop} {e e' : Evaluation α} (hf : Stop.Relabels f)
    (h : WithinSteps limit n least e e') : WithinSteps limit n least (mapStop f e) (mapStop f e') := by
  intro m hm hleft
  obtain ⟨heq, hspends⟩ := h m hm hleft
  refine ⟨by simp only [Evaluation.mapStop, heq], ?_⟩
  change Spends limit least m ((e m).1.mapError f, (e m).2)
  generalize e m = x at hspends
  cases hspends with
  | ok hleast hsteps => exact .ok hleast hsteps
  | error hs hsteps => exact .error (mt (hf.unfinished _).mp hs) hsteps

theorem asCall {e e' : Evaluation α} (h : WithinSteps limit n 0 e e') (depth : Int) :
    WithinSteps limit n 0 (asCall depth e) (asCall depth e') := by
  intro m hm hleft
  by_cases hdepth : depth ≤ m.depth
  · rw [asCall_of_le hdepth, asCall_of_le hdepth]
    exact ⟨rfl, .error id (Nat.le_succ_of_le hm)⟩
  · rw [asCall_of_lt (Int.not_le.mp hdepth), asCall_of_lt (Int.not_le.mp hdepth)]
    obtain ⟨heq, hspends⟩ := h { m with depth := m.depth + 1 } hm hleft
    refine ⟨by rw [heq], ?_⟩
    generalize e { m with depth := m.depth + 1 } = x at hspends
    cases hspends with
    | ok hleast hsteps => exact .ok hleast hsteps
    | error hs hsteps => exact .error hs hsteps

theorem composes (limit n : Nat) {limits limits' : Limits} (hdepth : limits.maxDepth = limits'.maxDepth) :
    Composes (M := Evaluation) (N := Evaluation) (fun _ => WithinSteps limit n 0) limits limits' where
  pure _ := .of_plain (.pure _)
  bind he hf := he.bind fun _ hk => by subst hk; exact hf
  act := .of_plain
  relabel := .mapStop
  call h := by
    rw [← hdepth]
    exact h.asCall limits.maxDepth

theorem repeatUntil {turn turn' : Evaluation (Option Value)} (h : WithinSteps limit n 1 turn turn')
    {patience patience' : Nat} (hn : n < patience) (hn' : n < patience') :
    WithinSteps limit n 0 (Carrier.repeatUntil turn patience) (Carrier.repeatUntil turn' patience') := by
  induction patience generalizing n patience' with
  | zero => exact absurd hn (Nat.not_lt_zero n)
  | succ patience ih =>
    obtain ⟨patience', rfl⟩ := Nat.exists_eq_succ_of_ne_zero (Nat.ne_zero_of_lt hn')
    rw [LawfulCarrier.repeatUntil_succ, LawfulCarrier.repeatUntil_succ]
    refine (h.bind fun k hk r => ?_).mono (Nat.le_refl n) (Nat.zero_le 1)
    cases r with
    | none => exact ih (h.mono (by omega) (Nat.le_refl 1)) (by omega) (by omega)
    | some v => exact .of_plain (.pure v)

section

variable {limit : Int} {limits limits' : Limits} (hsteps : limits.maxSteps = some limit)
  (hsteps' : limits'.maxSteps = some limit) (hdepth : limits.maxDepth = limits'.maxDepth)

include hsteps hsteps' hdepth

theorem visit {recur recur' : Node → Scope → Evaluation Value} (hn : n < limits.patience)
    (hn' : n < limits'.patience)
    (hrec : ∀ k, n = k + 1 → ∀ node e, WithinSteps limit.toNat k 1 (recur node e) (recur' node e))
    (node : Node) (scope : Scope) :
    WithinSteps limit.toNat n 1 (visit recur limits node scope) (visit recur' limits' node scope) := by
  unfold Evaluation.visit
  rw [hsteps, hsteps']
  refine (countStep limit n node.pos).bind fun k hk _ => mapStop (Stop.relabels_locate node.pos) ?_
  have hcomposes := composes limit.toNat k hdepth
  have hparts (node : Node) (e : Scope) : WithinSteps limit.toNat k 0 (recur node e) (recur' node e) :=
    (hrec k hk node e).mono (Nat.le_refl k) (Nat.zero_le 1)
  refine hcomposes.perform hparts (fun cond body scope => ?_) node scope
  have hcond : WithinSteps limit.toNat k 1 (condition recur cond scope) (condition recur' cond scope) := by
    refine (hrec k hk cond scope).bind fun _ _ v => ?_
    cases v
    case bool b => exact .of_plain (.pure b)
    all_goals exact .of_plain (.throw id)
  have hturn : WithinSteps limit.toNat k 1 (turn recur cond body scope) (turn recur' cond body scope) :=
    hcomposes.turn_of_condition hparts cond body scope fun hf =>
      hcond.bind fun i hi b => (hf b).mono (by omega) (Nat.le_refl 0)
  exact repeatUntil hturn (by omega) (by omega)

theorem evaluateWithin {room room' : Nat} (hroom : n < room) (hroom' : n < room')
    (hn : n < limits.patience) (hn' : n < limits'.patience) (node : Node) (scope : Scope) :
    WithinSteps limit.toNat n 1 (node.evaluateWithin limits room scope)
      (node.evaluateWithin limits' room' scope) := by
  induction room generalizing n room' node scope with
  | zero => exact absurd hroom (Nat.not_lt_zero n)
  | succ room ih =>
    obtain ⟨room', rfl⟩ := Nat.exists_eq_succ_of_ne_zero (Nat.ne_zero_of_lt hroom')
    exact visit hsteps hsteps' hdepth hn hn'
      (fun k hk => ih (by omega) (by omega) (by omega) (by omega)) node scope

theorem runFrom (hroom : n < limits.evaluationRoom) (hroom' : n < limits'.evaluationRoom)
    (hn : n < limits.patience) (hn' : n < limits'.patience) (scope : Scope) (last : Value)
    (statements : List Node) :
    WithinSteps limit.toNat n 0 (Program.runFrom limits scope last statements)
      (Program.runFrom limits' scope last statements) := by
  refine (composes limit.toNat n hdepth).runFrom (fun node e => ?_) scope last statements
  have hwithin := evaluateWithin hsteps hsteps' hdepth hroom hroom' hn hn' node e
  exact mapStop (Stop.relabels_settle node.pos) (hwithin.mono (Nat.le_refl n) (Nat.zero_le 1))

end

end WithinSteps

end Evaluation

namespace Program

open Evaluation

/-- Under a limit on steps every program ends, whatever functions are bound where it starts: there is
an end that it comes to with all the room and all the patience that one could have. The steps are
counted up to the first one over the limit. -/
theorem run_terminates (limits : Limits) (limit : Int) (statements : List Node) (scope : Scope)
    (m : Machine) :
    ∃ x : Except Stop Value × Machine,
      (∀ room patience, limit.toNat < room → limit.toNat < patience →
        run { limits with maxSteps := some limit, evaluationRoom := room, patience } statements scope m =
          x) ∧
      (∀ s, x.1 = .error s → ¬s.Unfinished) ∧ (x.2.steps : Int) ≤ max limit 0 + 1 := by
  let enough : Limits := { limits with
    maxSteps := some limit
    evaluationRoom := limit.toNat + 1
    patience := limit.toNat + 1 }
  have hlt := Nat.lt_succ_self limit.toNat
  have hruns {room patience : Nat} (hroom : limit.toNat < room) (hpatience : limit.toNat < patience) :
      WithinSteps limit.toNat limit.toNat 0 (runFrom enough scope .nil statements)
        (runFrom { limits with maxSteps := some limit, evaluationRoom := room, patience } scope .nil
          statements) := by
    apply WithinSteps.runFrom
    case hroom => exact hlt
    case hn => exact hlt
    case hroom' => exact hroom
    case hn' => exact hpatience
    all_goals rfl
  have hrun {room patience : Nat} (hroom : limit.toNat < room) (hpatience : limit.toNat < patience) :=
    hruns hroom hpatience { m with steps := 0, depth := 0 } (Nat.zero_le _) (Nat.le_add_left _ _)
  refine ⟨run enough statements scope m, fun room patience hroom hpatience => ?_, ?_⟩
  · exact (hrun hroom hpatience).1.symm
  · have hspends : Spends limit.toNat 0 _ (run enough statements scope m) := (hrun hlt hlt).2
    generalize run enough statements scope m = x at hspends
    cases hspends with
    | ok hleast hsteps => exact ⟨nofun, by simp only; omega⟩
    | error hs hsteps =>
      refine ⟨fun t ht => ?_, by simp only; omega⟩
      rwa [← Except.error.inj ht]

example : Faults (run { maxSteps := some 5, evaluationRoom := 6, patience := 6 }
    [.loop none (.literal none (.bool true)) (.block none [])] [0] (.initial (0 : Float))).1 (.stepLimit 5) := by
  decide +kernel

end Program

end Scriptlet
