import Scriptlet.Proofs.Sessions

namespace Scriptlet

def Node.isExpression : Node → Bool
  | literal .. | name .. | binary .. | unary .. | assign .. | call .. | function _ => true
  | _ => false

/-- No return is bound, none is what an expression comes to, and arguments are expressions. -/
def Note.WithoutReturn : Note → Prop
  | action before after => ∀ v, ¬before.Binds (.returned v) ∧ ¬after.Binds (.returned v)
  | evaluated node _ result after =>
    (∀ v, ¬after.Binds (.returned v)) ∧ (node.isExpression → ∀ v, result ≠ .ok (.returned v)) ∧
      ∀ pos callee args, node = .call pos callee args → ∀ n ∈ args, n.isExpression

variable {P : Token → Prop} {ss : List Scope}

theorem Formed.isExpression {f : Bool} {r : Role} {n : Node} (h : Formed P f r n) :
    n.isExpression = true ↔ r = .expression := by
  cases h <;> simp_all [Node.isExpression]

theorem Machine.Closed.not_binds {m : Machine} (h : m.Closed P ss) (v : Value) :
    ¬m.Binds (.returned v) :=
  h.values (.returned v)

theorem Note.Closed.withoutReturn {note : Note} (h : note.Closed P ss) : note.WithoutReturn := by
  cases note with
  | action before after => exact fun v => ⟨h.1.not_binds v, h.2.not_binds v⟩
  | evaluated node scope result after =>
    obtain ⟨hafter, -, f, r, hnode, hresult⟩ := h
    refine ⟨hafter.not_binds, fun hexpression v hv => ?_, ?_⟩
    · exact (hresult _ hv).2.1 (hnode.isExpression.mp hexpression)
    · rintro pos callee args rfl n hn
      cases hnode with
      | call ht ha hns => exact (hns n hn).isExpression.mpr rfl

/-- Programs do the same with returns as values as with returns that unwind: the results are the same
and the machine behind them is. No expression comes to a return, none is bound, and no program ends
with one. -/
theorem Program.runAll_unwindAll (limits : Limits) (clock : Clock) {ps : List Program}
    (hps : ∀ p ∈ ps, p.Parsed) :
    let root := (Machine.initial clock).openRoot
    let direct := runAll limits root.1 ps root.2
    let unwound := unwindAll limits root.1 ps root.2
    let recorded := recordAll limits root.1 ps root.2
    unwound.1 = direct.1.map (·.mapError .stop) ∧ unwound.2 = direct.2 ∧ recorded.1 = direct ∧
      (∀ v, .ok (.returned v) ∉ direct.1) ∧
      (∀ pos, .error (.error .returnOutside pos) ∉ direct.1) ∧
      ∀ note ∈ recorded.2, note.WithoutReturn := by
  intro root direct unwound recorded
  obtain ⟨ts, -, hproceeds⟩ := proceeds limits (List.mem_singleton_self [0])
    (fun p hp => (hps p hp).formed) (closed_openRoot clock)
  have hdirect : recorded.1 = direct := recordAll_fst limits [0] ps root.2
  obtain ⟨hresults, hmachine, -, hvalues, hstops, hhistory⟩ := hproceeds
  replace hdirect : (recordAll limits [0] ps root.2).1 = direct := hdirect
  rw [hdirect] at hresults hmachine hvalues hstops
  refine ⟨hresults, hmachine, hdirect, fun v hv => hvalues _ hv, fun pos hpos => ?_,
    fun note hnote => (hhistory note hnote).withoutReturn⟩
  obtain ⟨⟨hregular, -⟩, -⟩ := hstops _ hpos
  exact hregular

namespace Program

theorem runAll_unwindAll_returner :
    returner.Parsed ∧
      (unwindAll {} [0] [returner, returner] (Machine.initial (0 : Float)).openRoot.2).1.map
        (·.toOption.map Value.kind) = [some .nil, some .nil] := by
  have hps : ∀ p ∈ [returner, returner], p.Parsed := by
    simpa using parsed_returner
  obtain ⟨hunwound, -⟩ := runAll_unwindAll {} (0 : Float) hps
  refine ⟨parsed_returner, (congrArg _ hunwound).trans ?_⟩
  decide +kernel

end Program

end Scriptlet
