import Scriptlet.Proofs.NodePlaces
import Scriptlet.Syntax.Outline

namespace Scriptlet

/-- The chains that nodes of one sort make. -/
inductive Chain
  | operations | calls | assignments

def Node.continues : Chain → Node → Bool
  | .operations, .binary .. | .calls, .call .. | .assignments, .assign .. => true
  | _, _ => false

def Node.step (link : Nat) (chain : Chain) (n : Node) : Nat :=
  if n.continues chain then link else 1

mutual

/-- The steps from a node to the deepest one below it, of which each counts `link` along a chain. -/
def Node.depth (link : Nat) : Node → Nat
  | .literal .. | .name .. | .hole .. => 0
  | .binary _ _ a b => max (a.depth link + a.step link .operations) (b.depth link + 1)
  | .unary _ _ a | .expression _ a | .declareVar _ _ a => a.depth link + 1
  | .assign _ _ a => a.depth link + a.step link .assignments
  | .call _ f args => max (f.depth link + f.step link .calls) (Node.depths link args)
  | .function d => d.depth link + 1
  | .declareFunction _ d => d.depth link + 2
  | .program _ ns | .block _ ns => Node.depths link ns
  | .conditional _ c a e =>
    max (c.depth link + 1) (max (a.depth link + 1) (Node.depthOption link e))
  | .loop _ c a => max (c.depth link + 1) (a.depth link + 1)
  | .ret _ v => Node.depthOption link v
termination_by structural n => n

def Definition.depth (link : Nat) : Definition → Nat
  | ⟨_, _, _, _, body⟩ => Node.depths link body
termination_by structural d => d

def Node.depths (link : Nat) : List Node → Nat
  | [] => 0
  | n :: ns => max (n.depth link + 1) (Node.depths link ns)
termination_by structural ns => ns

def Node.depthOption (link : Nat) : Option Node → Nat
  | none => 0
  | some n => n.depth link + 1
termination_by structural n => n

end

theorem Definition.depth_eq (link : Nat) (d : Definition) : d.depth link = Node.depths link d.body := by
  cases d
  rfl

section

variable {ρ : Pairing} (link : Nat)

theorem Node.Like.step {n n' : Node} (h : n.Like ρ n') (chain : Chain) :
    n.step link chain = n'.step link chain := by
  cases h <;> cases chain <;> rfl

mutual

theorem Node.Like.depth {n n' : Node} (h : n.Like ρ n') : n.depth link = n'.depth link := by
  cases h with
  | literal | name | ret | hole => rfl
  | binary op _ ha hb => rw [Node.depth, Node.depth, ha.depth, hb.depth, ha.step]
  | unary op _ ha => rw [Node.depth, Node.depth, ha.depth]
  | assign x _ ha => rw [Node.depth, Node.depth, ha.depth, ha.step]
  | call _ ha hns => rw [Node.depth, Node.depth, ha.depth, ha.step, Node.depths_like hns]
  | function hd => rw [Node.depth, Node.depth, hd.depth]
  | program _ hns => rw [Node.depth, Node.depth, Node.depths_like hns]
  | expression _ ha => rw [Node.depth, Node.depth, ha.depth]
  | declareVar x _ ha => rw [Node.depth, Node.depth, ha.depth]
  | declareFunction _ hd => rw [Node.depth, Node.depth, hd.depth]
  | block _ hns => rw [Node.depth, Node.depth, Node.depths_like hns]
  | oneBranch _ hc hn => rw [Node.depth, Node.depth, hc.depth, hn.depth, Node.depthOption]
  | twoBranches _ hc hn hk =>
    rw [Node.depth, Node.depth, hc.depth, hn.depth, Node.depthOption, Node.depthOption, hk.depth]
  | loop _ hc hn => rw [Node.depth, Node.depth, hc.depth, hn.depth]
  | retValue _ ha => rw [Node.depth, Node.depth, Node.depthOption, Node.depthOption, ha.depth]
termination_by structural n

theorem Node.depths_like {ns ns' : List Node} (h : List.Forall₂ (Node.Like ρ) ns ns') :
    Node.depths link ns = Node.depths link ns' := by
  cases h with
  | nil => rfl
  | cons hn hns => rw [Node.depths, Node.depths, hn.depth, Node.depths_like hns]
termination_by structural ns

theorem Definition.Like.depth {d d' : Definition} (h : d.Like ρ d') :
    d.depth link = d'.depth link := by
  cases h with
  | mk name params _ _ hns => exact Node.depths_like hns
termination_by structural d

end

end

namespace Node

def height (n : Node) : Nat :=
  n.depth 1

theorem step_one (chain : Chain) (n : Node) : n.step 1 chain = 1 :=
  ite_self 1

theorem step_le (chain : Chain) (n : Node) : n.step 0 chain ≤ 1 := by
  unfold step
  split
  · exact Nat.zero_le 1
  · exact Nat.le_refl 1

theorem depthOption_eq (link : Nat) (n : Option Node) :
    depthOption link n = depths link n.toList := by
  cases n <;> simp [depthOption, depths]

theorem height_eq (n : Node) : n.height = n.children.foldr (fun k h => max (k.height + 1) h) 0 := by
  have hdepths (ns : List Node) : depths 1 ns = ns.foldr (fun k h => max (k.height + 1) h) 0 := by
    induction ns with
    | nil => rfl
    | cons n ns ih => rw [depths, ih, List.foldr_cons, height]
  cases n <;> simp [height, depth, children, depthOption_eq, Definition.depth_eq, hdepths, step_one]

theorem depths_le_iff {link k : Nat} {ns : List Node} :
    depths link ns ≤ k ↔ ∀ n ∈ ns, n.depth link < k := by
  induction ns with
  | nil => simp [depths]
  | cons n ns ih => rw [depths, Nat.max_le, ih, List.forall_mem_cons, Nat.succ_le_iff]

theorem outlineOption_eq (n : Option Node) : outlineOption n = outlines n.toList := by
  cases n <;> rfl

theorem bind_ite_some {α β : Type} (p : Prop) [Decidable p] (a : α) (f : α → Option β) :
    ((if p then some a else none) >>= f) = if p then f a else none := by
  split <;> rfl

theorem mapM_outlineWithin {room : Nat}
    (h : ∀ n : Node, n.outlineWithin room = if n.height < room then some n.outline else none)
    (ns : List Node) :
    ns.mapM (outlineWithin room) = if depths 1 ns ≤ room then some (outlines ns) else none := by
  induction ns with
  | nil => rfl
  | cons n ns ih =>
    rw [List.mapM_cons, h, ih, bind_ite_some, bind_ite_some, ← ite_and]
    refine if_congr ?_ rfl rfl
    rw [depths, height]
    omega

theorem outlineWithin_eq (room : Nat) (n : Node) :
    n.outlineWithin room = if n.height < room then some n.outline else none := by
  induction room generalizing n with
  | zero => rfl
  | succ room ih =>
    have hall := mapM_outlineWithin ih
    cases n with
    | literal | name | hole => exact (if_pos (Nat.zero_lt_succ room)).symm
    | function d =>
      simp only [outlineWithin, ih, bind_ite_some]
      refine if_congr ?_ ?_ rfl
      · simp only [height, depth, Definition.depth_eq]
        omega
      · cases d
        rfl
    | expression | declareFunction =>
      simp only [outlineWithin, ih]
      refine if_congr ?_ rfl rfl
      simp only [height, depth]
      omega
    | _ =>
      simp only [outlineWithin, ih, hall, bind_ite_some, ← ite_and]
      refine if_congr ?_ ?_ rfl
      · simp only [height, depth, step_one, depthOption_eq]
        omega
      · simp only [outline, outlineOption_eq]
        rfl

end Node

end Scriptlet
