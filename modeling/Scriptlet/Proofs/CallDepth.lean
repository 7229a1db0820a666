import Scriptlet.Proofs.Simulation

/-!
The limit on calls inside each other. Of two runs under different limits the one with the lower
limit does what the other does, up to a call that is one too many for it. Every evaluation ends
with as many active calls as it began with, so that a failure costs those behind it nothing.
-/

namespace Scriptlet

namespace Machine

structure Behind (m n : Machine) : Prop where
  depth : n.depth = m.depth
  steps : m.steps ≤ n.steps
  output : ∃ t, n.output = m.output ++ t

theorem Later.behind {m n : Machine} (h : m.Later n) : m.Behind n :=
  ⟨h.depth, h.steps, h.output⟩

theorem Behind.trans {m n k : Machine} (h : m.Behind n) (h' : n.Behind k) : m.Behind k := by
  obtain ⟨t, ht⟩ := h.output
  obtain ⟨u, hu⟩ := h'.output
  exact ⟨h'.depth.trans h.depth, Nat.le_trans h.steps h'.steps,
    t ++ u, by rw [hu, ht, String.append_assoc]⟩

end Machine

namespace Evaluation

variable {α β : Type} {low high : Int}

def Shallower (low : Int) (e e' : Evaluation α) : Prop :=
  ∀ m, m.Later (e' m).2 ∧
    ((e m = e' m ∧ ∀ limit, ¬Faults (e m).1 (.callDepth limit)) ∨
      (Faults (e m).1 (.callDepth low) ∧ (e m).2.Behind (e' m).2))

theorem Shallower.of_plain {e : Evaluation α} (he : Plain e) : Shallower low e e := by
  refine fun m => ⟨(he m).later, .inl ⟨rfl, ?_⟩⟩
  rintro limit ⟨pos, h⟩
  exact (he m).stop _ h trivial

theorem Shallower.countStep (maxSteps : Option Int) (pos : Option Position) :
    Shallower low (countStep maxSteps pos) (countStep maxSteps pos) := by
  refine fun m => ⟨later_countStep maxSteps pos m, .inl ⟨rfl, ?_⟩⟩
  rintro limit ⟨p, h⟩
  cases maxSteps with
  | none => cases h
  | some k =>
    rw [countStep_some] at h
    split at h <;> cases h

theorem Shallower.throw {s : Stop} (hs : s.Unfinished) :
    Shallower low (throw s : Evaluation α) (throw s) := by
  refine fun m => ⟨.refl m, .inl ⟨rfl, ?_⟩⟩
  rintro limit ⟨pos, h⟩
  cases h
  exact hs

theorem Shallower.bind {e e' : Evaluation α} {f f' : α → Evaluation β} (he : Shallower low e e')
    (hf : ∀ a, Shallower low (f a) (f' a)) : Shallower low (e >>= f) (e' >>= f') := by
  intro m
  obtain ⟨hlater, h⟩ := he m
  rw [bind_apply, bind_apply]
  rcases hm' : e' m with ⟨s | a, n'⟩
  all_goals
    rw [hm'] at hlater h
    rcases h with ⟨heq, hdeep⟩ | ⟨⟨pos, hdeep⟩, hbehind⟩
  · rw [heq] at hdeep ⊢
    refine ⟨hlater, .inl ⟨rfl, ?_⟩⟩
    rintro limit ⟨pos, h⟩
    cases h
    exact hdeep limit ⟨pos, rfl⟩
  · rcases hm : e m with ⟨r, n⟩
    rw [hm] at hdeep hbehind
    cases hdeep
    exact ⟨hlater, .inr ⟨⟨pos, rfl⟩, hbehind⟩⟩
  · rw [heq]
    exact ⟨hlater.trans (hf a n').1, (hf a n').2⟩
  · -- The run with the higher limit goes on, which only takes it further.
    rcases hm : e m with ⟨r, n⟩
    rw [hm] at hdeep hbehind
    cases hdeep
    have hfurther := (hf a n').1
    exact ⟨hlater.trans hfurther, .inr ⟨⟨pos, rfl⟩, hbehind.trans hfurther.behind⟩⟩

theorem Shallower.mapStop {f : Stop → Stop} {e e' : Evaluation α} (hf : Stop.Relabels f)
    (h : Shallower low e e') : Shallower low (mapStop f e) (mapStop f e') := by
  intro m
  obtain ⟨hlater, h⟩ := h m
  refine ⟨hlater, h.imp ?_ ?_⟩
  · rintro ⟨heq, hdeep⟩
    refine ⟨by simp only [Evaluation.mapStop, heq], fun limit hfault => hdeep limit ?_⟩
    exact (faults_mapError hf _ (.callDepth limit) trivial).mp hfault
  · rintro ⟨hdeep, hbehind⟩
    exact ⟨(faults_mapError hf _ (.callDepth low) trivial).mpr hdeep, hbehind⟩

theorem later_asCall {limit : Int} {e : Evaluation α} (he : ∀ m : Machine, m.Later (e m).2)
    (m : Machine) : m.Later (asCall limit e m).2 := by
  by_cases h : limit ≤ m.depth
  · rw [asCall_of_le h]
    exact .refl m
  · rw [asCall_of_lt (Int.not_le.mp h)]
    obtain ⟨hstore, houtput, hsteps, hdepth, hmade, hclock⟩ := he { m with depth := m.depth + 1 }
    exact ⟨hstore, houtput, hsteps, by simp only [hdepth, Nat.add_sub_cancel], hmade, hclock⟩

theorem Shallower.asCall {e e' : Evaluation α} (hle : low ≤ high) (h : Shallower low e e') :
    Shallower low (asCall low e) (asCall high e') := by
  intro m
  have hlater : m.Later (Evaluation.asCall high e' m).2 := later_asCall (fun m => (h m).1) m
  refine ⟨hlater, ?_⟩
  by_cases hlow : low ≤ m.depth
  · rw [asCall_of_le hlow]
    exact .inr ⟨⟨none, rfl⟩, hlater.behind⟩
  · have hlt := Int.not_le.mp hlow
    rw [asCall_of_lt hlt, asCall_of_lt (Int.lt_of_lt_of_le hlt hle)]
    obtain ⟨-, ⟨heq, hdeep⟩ | ⟨hdeep, hbehind⟩⟩ := h { m with depth := m.depth + 1 }
    · exact .inl ⟨by rw [heq], hdeep⟩
    · refine .inr ⟨hdeep, ?_⟩
      obtain ⟨hdepth, hsteps, houtput⟩ := hbehind
      exact ⟨by simp only [hdepth], hsteps, houtput⟩

theorem simulates_shallower (limits : Limits) (hle : low ≤ high) :
    Simulates (M := Evaluation) (N := Evaluation) (fun _ => Shallower low)
      { limits with maxDepth := low } { limits with maxDepth := high } where
  pure _ := .of_plain (.pure _)
  bind := .bind
  act := .of_plain
  relabel := .mapStop
  call := .asCall hle
  patience := rfl
  step pos := .countStep limits.maxSteps pos
  halt := .throw

theorem later_evaluate (limits : Limits) (node : Node) (scope : Scope) (m : Machine) :
    m.Later (node.evaluate limits scope m).2 :=
  ((simulates_shallower limits (Int.le_refl limits.maxDepth)).evaluate rfl node scope m).1

def series (limits : Limits) (calls : List (Node × Scope)) (m : Machine) : Machine :=
  calls.foldl (fun m c => (c.1.evaluate limits c.2 m).2) m

theorem later_series (limits : Limits) (calls : List (Node × Scope)) (m : Machine) :
    m.Later (series limits calls m) := by
  induction calls generalizing m with
  | nil => exact .refl m
  | cons c calls ih => exact (later_evaluate limits c.1 c.2 m).trans (ih _)

end Evaluation

namespace Program

open Evaluation

theorem later_run (limits : Limits) (statements : List Node) (scope : Scope) (m : Machine) :
    { m with steps := 0, depth := 0 }.Later (run limits statements scope m).2 :=
  ((simulates_shallower limits (Int.le_refl limits.maxDepth)).runFrom rfl scope .nil statements
    { m with steps := 0, depth := 0 }).1

/-- A lower limit on calls changes nothing, unless it is exceeded; what exceeds a limit exceeds all
lower ones, no later. No evaluation leaves a call behind that counts as active. -/
theorem run_callDepth (limits : Limits) {low high : Int} (hle : low ≤ high)
    (statements : List Node) (scope : Scope) (m : Machine) :
    let x := run { limits with maxDepth := low } statements scope m
    let y := run { limits with maxDepth := high } statements scope m
    (¬Faults x.1 (.callDepth low) → x = y) ∧
      (Faults y.1 (.callDepth high) → Faults x.1 (.callDepth low) ∧
        (∃ t, y.2.output = x.2.output ++ t) ∧ x.2.steps ≤ y.2.steps) ∧
      (run limits statements scope m).2.depth = 0 ∧
      ∀ calls, (series limits calls m).depth = m.depth := by
  intro x y
  obtain ⟨-, h⟩ := (simulates_shallower limits hle).runFrom rfl scope .nil statements
    { m with steps := 0, depth := 0 }
  replace h : x = y ∧ (∀ limit, ¬Faults x.1 (.callDepth limit)) ∨
    Faults x.1 (.callDepth low) ∧ x.2.Behind y.2 := h
  refine ⟨fun hx => ?_, fun hy => ?_, (later_run limits statements scope m).depth,
    fun calls => (later_series limits calls m).depth⟩
  · rcases h with ⟨heq, -⟩ | ⟨hdeep, -⟩
    · exact heq
    · exact absurd hdeep hx
  · rcases h with ⟨heq, hdeep⟩ | ⟨hdeep, hbehind⟩
    · rw [← heq] at hy
      exact absurd hy (hdeep high)
    · exact ⟨hdeep, hbehind.output, hbehind.steps⟩

def callsInside : Nat → List Node
  | 0 => []
  | n + 1 => [.expression none (.call none (.function ⟨none, none, [], none, callsInside n⟩) [])]

theorem run_callDepth_callsInside :
    Faults (run { maxDepth := 2 } (callsInside 3) [0] (.initial (0 : Float))).1 (.callDepth 2) ∧
      (run { maxDepth := 1 } (callsInside 3) [0] (.initial (0 : Float))).2.steps ≤
        (run { maxDepth := 2 } (callsInside 3) [0] (.initial (0 : Float))).2.steps := by
  have hdeep : Faults (run { maxDepth := 2 } (callsInside 3) [0] (.initial (0 : Float))).1 (.callDepth 2) := by
    decide +kernel
  have hle : (1 : Int) ≤ 2 := by decide
  have h := run_callDepth {} hle (callsInside 3) [0] (.initial (0 : Float))
  simp only at h
  obtain ⟨-, hexceeds, -⟩ := h
  exact ⟨hdeep, (hexceeds hdeep).2.2⟩

end Program

end Scriptlet
