import Scriptlet.Evaluation

namespace Scriptlet.Operator

def arithmetic (op : String) (x y : Float) : Except Stop Value :=
  match op with
  | "<" => .ok (.bool (x < y))
  | "<=" => .ok (.bool (x ≤ y))
  | ">" => .ok (.bool (y < x))
  | ">=" => .ok (.bool (y ≤ x))
  | "+" => .ok (.number (x + y))
  | "-" => .ok (.number (x - y))
  | "*" => .ok (.number (x * y))
  | "/" => if y == 0 then .error (.error .divisionByZero none) else .ok (.number (x / y))
  | _ => .error (.unknownOperator op)

/-- A binary operator that takes both its operands: equality is for all values, the rest is for
numbers. -/
def binary (op : String) (a b : Value) : Except Stop Value :=
  match op with
  | "==" => .ok (.bool (a.equal b))
  | "!=" => .ok (.bool (!a.equal b))
  | _ =>
    match a.number?, b.number? with
    | some x, some y => arithmetic op x y
    | _, _ => .error (.error (.operands op a.kind b.kind) none)

def unary (op : String) (a : Value) : Except Stop Value :=
  match op with
  | "not" => .ok (.bool (!a.isTruthy))
  | _ =>
    match a.number? with
    | some x => .ok (.number (-x))
    | none => .error (.error (.operand op a.kind) none)

theorem arithmetic_ok {op : String} {x y : Float} {v : Value} (h : arithmetic op x y = .ok v) :
    (∃ b, v = .bool b) ∨ ∃ z, v = .number z := by
  unfold arithmetic at h
  split at h
  case h_8 =>
    split at h <;> cases h
    exact .inr ⟨_, rfl⟩
  case h_9 => cases h
  all_goals
    obtain rfl := Except.ok.inj h
    first | exact .inl ⟨_, rfl⟩ | exact .inr ⟨_, rfl⟩

theorem arithmetic_error {op : String} {x y : Float} {s : Stop} (h : arithmetic op x y = .error s) :
    s = .error .divisionByZero none ∨
      s = .unknownOperator op ∧ op ∉ ["<", "<=", ">", ">=", "+", "-", "*", "/"] := by
  unfold arithmetic at h
  split at h
  all_goals first | cases h | skip
  · split at h <;> cases h
    exact .inl rfl
  · right
    refine ⟨rfl, ?_⟩
    simp only [List.mem_cons, List.not_mem_nil, or_false, not_or]
    exact ⟨by assumption, by assumption, by assumption, by assumption, by assumption,
      by assumption, by assumption, by assumption⟩

theorem binary_ok {op : String} {a b v : Value} (h : binary op a b = .ok v) :
    (∃ b, v = .bool b) ∨ ∃ z, v = .number z := by
  unfold binary at h
  split at h
  · exact .inl ⟨_, (Except.ok.inj h).symm⟩
  · exact .inl ⟨_, (Except.ok.inj h).symm⟩
  · split at h
    · exact arithmetic_ok h
    · cases h

theorem binary_error {op : String} {a b : Value} {s : Stop} (h : binary op a b = .error s) :
    s = .error (.operands op a.kind b.kind) none ∨ s = .error .divisionByZero none ∨
      s = .unknownOperator op ∧ op ∉ ["==", "!=", "<", "<=", ">", ">=", "+", "-", "*", "/"] := by
  unfold binary at h
  split at h
  · cases h
  · cases h
  · rename_i hequal hunequal
    split at h
    · refine .inr ((arithmetic_error h).imp_right fun ⟨hs, hop⟩ => ⟨hs, ?_⟩)
      exact List.not_mem_cons_of_ne_of_not_mem hequal
        (List.not_mem_cons_of_ne_of_not_mem hunequal hop)
    · exact .inl (Except.error.inj h).symm

theorem unary_ok {op : String} {a v : Value} (h : unary op a = .ok v) :
    (∃ b, v = .bool b) ∨ ∃ z, v = .number z := by
  unfold unary at h
  split at h
  · exact .inl ⟨_, (Except.ok.inj h).symm⟩
  · split at h
    · exact .inr ⟨_, (Except.ok.inj h).symm⟩
    · cases h

theorem unary_error {op : String} {a : Value} {s : Stop} (h : unary op a = .error s) :
    s = .error (.operand op a.kind) none := by
  unfold unary at h
  split at h
  · cases h
  · split at h
    · cases h
    · exact (Except.error.inj h).symm

end Scriptlet.Operator
