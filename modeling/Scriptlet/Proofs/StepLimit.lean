import Scriptlet.Proofs.History

/-!
The limit on steps. A run under a limit does what the unlimited run does, up to the step that is one
too many, and ends there in the state in which the unlimited run counts that step.
-/

namespace Scriptlet

def Note.counted? : Note → Option Machine
  | action before after => if before.steps < after.steps then some before else none
  | evaluated .. => none

def moments (history : List Note) : List Machine :=
  history.filterMap Note.counted?

theorem moments_append (h h' : List Note) : moments (h ++ h') = moments h ++ moments h' :=
  List.filterMap_append

theorem moments_action {m n : Machine} (h : n.steps = m.steps) : moments [.action m n] = [] := by
  simp [moments, Note.counted?, h]

theorem moments_step (m : Machine) :
    moments [.action m { m with steps := m.steps + 1 }] = [m] := by
  simp [moments, Note.counted?]

structure Counts (m : Machine) (h : List Note) (n : Machine) : Prop where
  later : m.Later n
  steps : n.steps = m.steps + (moments h).length

structure CutShort (limit : Int) (m : Machine) (h : List Note) (n k : Machine) : Prop where
  moment : ∃ l, (moments h)[limit.toNat - m.steps]? = some l ∧ l.steps = limit.toNat ∧
    k = { l with steps := limit.toNat + 1, depth := m.depth }
  output : ∃ t, n.output = k.output ++ t

section

variable {limit : Int} {m n k l : Machine} {h h' : List Note}

theorem Counts.append (hm : Counts m h n) (hn : Counts n h' k) : Counts m (h ++ h') k := by
  refine ⟨hm.later.trans hn.later, ?_⟩
  rw [moments_append, List.length_append, hn.steps, hm.steps, Nat.add_assoc]

theorem CutShort.append (hcut : CutShort limit m h n k) (hn : n.Later l) :
    CutShort limit m (h ++ h') l k := by
  obtain ⟨⟨i, hi, hsteps, hend⟩, t, ht⟩ := hcut
  obtain ⟨u, hu⟩ := hn.output
  have hlt := (List.getElem?_eq_some_iff.mp hi).1
  refine ⟨⟨i, ?_, hsteps, hend⟩, t ++ u, ?_⟩
  · rwa [moments_append, List.getElem?_append_left hlt]
  · rw [hu, ht, String.append_assoc]

theorem CutShort.prepend (hm : Counts m h n) (hle : n.steps ≤ limit.toNat)
    (hcut : CutShort limit n h' k l) : CutShort limit m (h ++ h') k l := by
  obtain ⟨⟨i, hi, hsteps, hend⟩, houtput⟩ := hcut
  have hindex : limit.toNat - m.steps = (moments h).length + (limit.toNat - n.steps) := by
    have hcount := hm.steps
    omega
  refine ⟨⟨i, ?_, hsteps, by rw [hend, hm.later.depth]⟩, houtput⟩
  rw [moments_append, hindex, List.getElem?_append_right (Nat.le_add_right _ _),
    Nat.add_sub_cancel_left, hi]

end

namespace Recorded

open Evaluation

variable {α β : Type} {limit : Int}

def Truncates (limit : Int) (free : Recorded α) (cut : Evaluation α) : Prop :=
  ∀ m, Counts m (free m).2 (free m).1.2 ∧ (m.steps ≤ limit.toNat →
    ((free m).1.2.steps ≤ limit.toNat ∧ cut m = (free m).1) ∨
      (Faults (cut m).1 (.stepLimit limit) ∧
        CutShort limit m (free m).2 (free m).1.2 (cut m).2))

theorem Truncates.pure (a : α) : Truncates limit (pure a) (pure a) :=
  fun m => ⟨⟨.refl m, rfl⟩, fun hm => .inl ⟨hm, rfl⟩⟩

theorem Truncates.of_plain {e : Evaluation α} (he : Plain e) : Truncates limit (act e) e := by
  intro m
  have hsteps := (he m).steps
  rw [act_apply]
  refine ⟨⟨(he m).later, ?_⟩, fun hm => .inl ⟨?_, rfl⟩⟩
  · rw [moments_action hsteps, hsteps]
    rfl
  · rwa [hsteps]

theorem Truncates.throw (s : Stop) :
    Truncates limit (act (throw s : Evaluation α)) (throw s) :=
  fun m => ⟨⟨.refl m, congrArg (m.steps + List.length ·) (moments_action rfl).symm⟩,
    fun hm => .inl ⟨hm, rfl⟩⟩

theorem Truncates.countStep (pos : Option Position) :
    Truncates limit (act (Evaluation.countStep none pos))
      (Evaluation.countStep (some limit) pos) := by
  intro m
  have hfree : act (Evaluation.countStep none pos) m =
      ((.ok (), { m with steps := m.steps + 1 }),
        [.action m { m with steps := m.steps + 1 }]) := rfl
  rw [hfree, countStep_some]
  refine ⟨⟨later_countStep none pos m, by rw [moments_step]; rfl⟩, fun hm => ?_⟩
  by_cases hover : limit < (m.steps + 1 : Nat)
  · have hsteps : m.steps = limit.toNat := by omega
    rw [if_pos hover, ← hsteps]
    refine .inr ⟨⟨pos, rfl⟩, ⟨m, ?_, hsteps, by rw [← hsteps]⟩, "", String.append_empty.symm⟩
    rw [moments_step, ← hsteps, Nat.sub_self]
    rfl
  · have hle : m.steps + 1 ≤ limit.toNat := by omega
    rw [if_neg hover]
    exact .inl ⟨hle, rfl⟩

theorem Truncates.bind {e : Recorded α} {e' : Evaluation α} {f : α → Recorded β}
    {f' : α → Evaluation β} (he : Truncates limit e e') (hf : ∀ a, Truncates limit (f a) (f' a)) :
    Truncates limit (e >>= f) (e' >>= f') := by
  intro m
  obtain ⟨hcounts, h⟩ := he m
  rw [bind_apply, Evaluation.bind_apply]
  rcases hx : e m with ⟨⟨s | a, n⟩, notes⟩
  all_goals rw [hx] at hcounts h
  · refine ⟨hcounts, fun hm => ?_⟩
    rcases h hm with ⟨hle, heq⟩ | ⟨⟨pos, hfault⟩, hcut⟩
    · rw [heq]
      exact .inl ⟨hle, rfl⟩
    · rcases hy : e' m with ⟨r, k⟩
      rw [hy] at hfault hcut
      cases hfault
      exact .inr ⟨⟨pos, rfl⟩, hcut⟩
  · obtain ⟨hcounts', h'⟩ := hf a n
    refine ⟨hcounts.append hcounts', fun hm => ?_⟩
    rcases h hm with ⟨hle, heq⟩ | ⟨⟨pos, hfault⟩, hcut⟩
    · rw [heq]
      exact (h' hle).imp id fun ⟨hfault, hcut⟩ => ⟨hfault, hcut.prepend hcounts hle⟩
    · rcases hy : e' m with ⟨r, k⟩
      rw [hy] at hfault hcut
      cases hfault
      exact .inr ⟨⟨pos, rfl⟩, hcut.append hcounts'.later⟩

theorem Truncates.mapStop {f : Stop → Stop} {e : Recorded α} {e' : Evaluation α}
    (hf : Stop.Relabels f) (h : Truncates limit e e') :
    Truncates limit (mapStop f e) (Evaluation.mapStop f e') := by
  intro m
  obtain ⟨hcounts, h⟩ := h m
  refine ⟨hcounts, fun hm => (h hm).imp ?_ ?_⟩
  · rintro ⟨hle, heq⟩
    refine ⟨hle, ?_⟩
    change ((e' m).1.mapError f, (e' m).2) = ((e m).1.1.mapError f, (e m).1.2)
    rw [heq]
  · rintro ⟨hfault, hcut⟩
    exact ⟨(faults_mapError hf _ (.stepLimit limit) trivial).mpr hfault, hcut⟩

theorem Truncates.asCall {e : Recorded α} {e' : Evaluation α} (h : Truncates limit e e')
    (depth : Int) : Truncates limit (asCall depth e) (Evaluation.asCall depth e') := by
  intro m
  by_cases hm : depth ≤ m.depth
  · rw [Evaluation.asCall_of_le hm, asCall_of_le hm]
    exact ⟨⟨.refl m, rfl⟩, fun hle => .inl ⟨hle, rfl⟩⟩
  · have hlt := Int.not_le.mp hm
    rw [Evaluation.asCall_of_lt hlt, asCall_of_lt hlt]
    obtain ⟨⟨hlater, hsteps⟩, h⟩ := h { m with depth := m.depth + 1 }
    have hdepth := hlater.depth
    simp only at hdepth
    refine ⟨⟨⟨hlater.store, hlater.output, hlater.steps, ?_, hlater.made, hlater.clock⟩, hsteps⟩,
      fun hle => (h hle).imp ?_ ?_⟩
    · simp only [hdepth, Nat.add_sub_cancel]
    · rintro ⟨hsteps, heq⟩
      exact ⟨hsteps, by rw [heq]⟩
    · rintro ⟨hfault, ⟨l, hl, hlsteps, hend⟩, houtput⟩
      exact ⟨hfault, ⟨l, hl, hlsteps, by rw [hend]; rfl⟩, houtput⟩

theorem simulates_truncates (limits : Limits) (limit : Int) :
    Simulates (M := Recorded) (N := Evaluation) (fun _ => Truncates limit)
      { limits with maxSteps := none } { limits with maxSteps := some limit } where
  pure := .pure
  bind := .bind
  act := .of_plain
  relabel := .mapStop
  call h := h.asCall limits.maxDepth
  patience := rfl
  step := .countStep
  halt _ := .throw _

theorem Truncates.noting {e : Recorded Value} {e' : Evaluation Value} (node : Node) (scope : Scope)
    (h : Truncates limit e e') : Truncates limit (noting node scope e) e' := by
  have hmoments (m : Machine) : moments (Recorded.noting node scope e m).2 = moments (e m).2 :=
    (moments_append _ _).trans (List.append_nil _)
  intro m
  obtain ⟨⟨hlater, hsteps⟩, h⟩ := h m
  refine ⟨⟨hlater, by rw [hmoments]; exact hsteps⟩, fun hm => (h hm).imp id ?_⟩
  rintro ⟨hfault, hmoment, houtput⟩
  exact ⟨hfault, by rwa [hmoments], houtput⟩

end Recorded

namespace Program

open Recorded

def steps (limits : Limits) (statements : List Node) (scope : Scope) (m : Machine) : List Machine :=
  moments (record { limits with maxSteps := none } statements scope m).2

theorem steps_eq (limits : Limits) (statements : List Node) (scope : Scope) (m : Machine) :
    steps limits statements scope m =
      moments (recordFrom { limits with maxSteps := none } scope .nil statements
        { m with steps := 0, depth := 0 }).2 := by
  have hreset : Note.counted? (.action m { m with steps := 0, depth := 0 }) = none := by
    simp [Note.counted?]
  unfold steps moments
  rw [record_apply, List.filterMap_cons_none hreset]

/-- A limit on steps changes nothing, unless a run takes more. Then the run stops one step over the
limit, with the output and the bindings that the run without a limit has in front of that step. -/
theorem run_maxSteps (limits : Limits) (limit : Int) (statements : List Node) (scope : Scope)
    (m : Machine) :
    let free := run { limits with maxSteps := none } statements scope m
    let cut := run { limits with maxSteps := some limit } statements scope m
    free.2.steps = (steps limits statements scope m).length ∧
      (free.2.steps ≤ limit ∨ free.2.steps = 0 → cut = free) ∧
      (1 ≤ free.2.steps → limit < free.2.steps →
        Faults cut.1 (.stepLimit limit) ∧ (cut.2.steps : Int) = max limit 0 + 1 ∧
          (∃ t, free.2.output = cut.2.output ++ t) ∧
          ∃ moment, (steps limits statements scope m)[limit.toNat]? = some moment ∧
            moment.steps = limit.toNat ∧
            cut.2 = { moment with steps := limit.toNat + 1, depth := 0 }) := by
  intro free cut
  obtain ⟨hcounts, h⟩ := (simulates_truncates limits limit).recordFrom
    (fun node scope _ _ => .noting node scope) rfl scope .nil statements
    { m with steps := 0, depth := 0 }
  have hmatches : (recordFrom { limits with maxSteps := none } scope .nil statements
      { m with steps := 0, depth := 0 }).1 = free := by
    have hrecord := matches_record { limits with maxSteps := none } statements scope m
    rwa [record_apply] at hrecord
  rw [hmatches] at hcounts h
  replace h := h (Nat.zero_le _)
  have hlength : free.2.steps = (steps limits statements scope m).length := by
    rw [steps_eq]
    exact hcounts.steps.trans (Nat.zero_add _)
  refine ⟨hlength, fun hle => ?_, fun hpos hlt => ?_⟩
  · rcases h with ⟨-, heq⟩ | ⟨-, ⟨l, hl, -⟩, -⟩
    · exact heq
    · rw [← steps_eq] at hl
      have hindex := (List.getElem?_eq_some_iff.mp hl).1
      simp only at hindex
      omega
  · rcases h with ⟨hle, -⟩ | ⟨hfault, ⟨l, hl, hlsteps, hend⟩, houtput⟩
    · omega
    · rw [← steps_eq] at hl
      replace hend : cut.2 = { l with steps := limit.toNat + 1, depth := 0 } := hend
      refine ⟨hfault, ?_, houtput, l, hl, hlsteps, hend⟩
      rw [hend]
      simp only
      omega

theorem run_maxSteps_literals :
    let literals := List.replicate 3 (Node.literal none .nil)
    Faults (run { maxSteps := some 1 } literals [0] (.initial (0 : Float))).1 (.stepLimit 1) ∧
      (run { maxSteps := some 1 } literals [0] (.initial (0 : Float))).2.steps = 2 := by
  intro literals
  have hsteps : (run {} literals [0] (.initial (0 : Float))).2.steps = 3 := rfl
  have h := run_maxSteps {} 1 literals [0] (.initial (0 : Float))
  simp only at h
  obtain ⟨-, -, hover⟩ := h
  rw [hsteps] at hover
  obtain ⟨hfault, hstop, -⟩ := hover (by decide) (by decide)
  exact ⟨hfault, by omega⟩

end Program

end Scriptlet
