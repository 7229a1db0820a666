import Scriptlet.Syntax

namespace Scriptlet

/-- The bindings of one level, in the order in which their names were first defined. -/
abbrev Frame := List (String × Value)

namespace Frame

def names (f : Frame) : List String :=
  f.map Prod.fst

def get? (f : Frame) (x : String) : Option Value :=
  f.lookup x

def contains (f : Frame) (x : String) : Bool :=
  (f.get? x).isSome

def set (x : String) (v : Value) : Frame → Frame
  | [] => [(x, v)]
  | (y, w) :: f => if x = y then (x, v) :: f else (y, w) :: set x v f

@[simp]
theorem get?_nil (x : String) : get? [] x = none := rfl

theorem get?_cons (b : String × Value) (f : Frame) (x : String) :
    get? (b :: f) x = if x = b.1 then some b.2 else f.get? x := by
  obtain ⟨y, w⟩ := b
  by_cases h : x = y
  · simp [get?, h]
  · simp [get?, List.lookup_cons, beq_eq_false_iff_ne.mpr h, h]

theorem get?_set (f : Frame) (x y : String) (v : Value) :
    (f.set x v).get? y = if y = x then some v else f.get? y := by
  induction f with
  | nil => simp [set, get?_cons]
  | cons b f ih =>
    simp only [set]
    by_cases hx : x = b.1
    · subst hx
      by_cases hy : y = b.1 <;> simp [get?_cons, hy]
    · by_cases hy : y = b.1
      · subst hy
        simp [get?_cons, hx, Ne.symm hx]
      · simp [get?_cons, hx, hy, ih]

theorem contains_iff_mem_names (f : Frame) (x : String) :
    f.contains x = true ↔ x ∈ f.names := by
  induction f with
  | nil => simp [contains, names]
  | cons b f ih =>
    simp only [contains, names] at ih ⊢
    by_cases hx : x = b.1 <;> simp [get?_cons, hx, ih]

theorem names_set (f : Frame) (x : String) (v : Value) :
    (f.set x v).names = if x ∈ f.names then f.names else f.names ++ [x] := by
  induction f with
  | nil => simp [set, names]
  | cons b f ih =>
    simp only [names] at ih ⊢
    by_cases hx : x = b.1
    · simp [set, hx]
    · by_cases hf : x ∈ f.map Prod.fst <;> simp [set, hx, hf, ih]

end Frame

structure Store where
  frames : Array Frame

namespace Store

def empty : Store := ⟨#[]⟩

def frame (s : Store) (a : Address) : Frame :=
  s.frames[a]?.getD []

def fresh (s : Store) : Address :=
  s.frames.size

def push (s : Store) (f : Frame) : Store :=
  ⟨s.frames.push f⟩

def update (s : Store) (a : Address) (x : String) (v : Value) : Store :=
  ⟨s.frames.modify a (Frame.set x v)⟩

def resolve (s : Store) (scope : Scope) (x : String) : Option Address :=
  scope.find? fun a => (s.frame a).contains x

def contains (s : Store) (scope : Scope) (x : String) : Bool :=
  (s.resolve scope x).isSome

def get? (s : Store) (scope : Scope) (x : String) : Option Value :=
  (s.resolve scope x).bind fun a => (s.frame a).get? x

def assign? (s : Store) (scope : Scope) (x : String) (v : Value) : Option Store :=
  (s.resolve scope x).map fun a => s.update a x v

def define (s : Store) (scope : Scope) (x : String) (v : Value) : Store :=
  scope.head?.elim s fun a => s.update a x v

@[simp]
theorem fresh_push (s : Store) (f : Frame) : (s.push f).fresh = s.fresh + 1 := by
  simp [fresh, push]

@[simp]
theorem fresh_update (s : Store) (a : Address) (x : String) (v : Value) :
    (s.update a x v).fresh = s.fresh := by
  simp [fresh, update]

theorem frame_push (s : Store) (f : Frame) (a : Address) :
    (s.push f).frame a = if a = s.fresh then f else s.frame a := by
  by_cases h : a = s.frames.size <;> simp [frame, push, fresh, Array.getElem?_push, h]

theorem frame_update (s : Store) (a b : Address) (x : String) (v : Value) (ha : a < s.fresh) :
    (s.update a x v).frame b = if b = a then (s.frame b).set x v else s.frame b := by
  simp only [fresh] at ha
  simp only [frame, update, Array.getElem?_modify, eq_comm (a := b)]
  split
  · rename_i hb
    subst hb
    simp [ha]
  · rfl

/-- The names in sight, level by level, if the host's stack has room for that many levels inside each
other. -/
def describeWithin (s : Store) : Nat → Scope → Option String
  | 0, _ => none
  | _ + 1, [] => "<Environment []>"
  | _ + 1, [a] => s!"<Environment [{level a}]>"
  | room + 1, a :: scope => do
    return s!"<Environment [{level a}] -> {← s.describeWithin room scope}>"
where
  level (a : Address) : String := ", ".intercalate (s.frame a).names

/-- The names in sight, on a stack with room for all levels. -/
def describe (s : Store) (scope : Scope) : String :=
  (s.describeWithin (scope.length + 1) scope).getD ""

end Store

end Scriptlet
