import MathScript.Proofs.Lockstep

/-!
How high trees are. Operators, assignments and conditionals are written in chains of any length, and
each sign of a chain makes a level: the nodes they make are links. A height counts them, or counts
the other levels only.
-/

namespace MathScript.Tree

/-- The nodes that the signs of chains make. -/
def links : Tree → Bool
  | .apply (.scalars _) _ | .apply (.vectors _) _ | .apply (.strings _) _ => true
  | .logic .. | .branch .. | .assign .. => true
  | _ => false

/-- What a node adds to a height. A link adds to it if links are `counted`. -/
def rise (counted : Bool) (t : Tree) : Nat := if t.links then counted.toNat else 1

/-- The most that the nodes from here down to a leaf add. -/
def height (counted : Bool) (t : Tree) : Nat :=
  (t.children.attach.map fun ⟨child, member⟩ =>
    have := sizeOf_lt_of_mem_children member
    child.height counted).foldr max 0 + t.rise counted
termination_by sizeOf t

/-- How many levels of nodes a tree has. -/
def depth (t : Tree) : Nat := t.height true

/-- How many levels a tree has if links make none. -/
def levels (t : Tree) : Nat := t.height false

/-- What a node adds to the pieces it is put together from. The sides of a swap are no nodes below
it, but only what they have in brackets. -/
def gain (counted : Bool) : Tree → Nat
  | .swap .. => 0
  | t => t.rise counted

variable {counted : Bool} {P Q : Tree → Prop} {bound bound' : Nat} {t : Tree}

theorem height_eq (counted : Bool) (t : Tree) : t.height counted =
    (t.children.map fun child => child.height counted).foldr max 0 + t.rise counted := by
  rw [height]
  congr 2
  simp

theorem rise_le (counted : Bool) (t : Tree) : t.rise counted ≤ 1 := by
  unfold rise
  split
  · exact Bool.toNat_le counted
  · exact Nat.le_refl 1

theorem rise_link (link : t.links = true) : t.rise counted = counted.toNat := if_pos link

theorem gain_le (counted : Bool) (t : Tree) : t.gain counted ≤ t.rise counted := by
  unfold gain
  split
  · exact Nat.zero_le _
  · exact Nat.le_refl _

/-- A tree that is at most `bound` high, and what all of its nodes have. -/
inductive Within (P : Tree → Prop) (counted : Bool) : Nat → Tree → Prop
  | node {bound below : Nat} {t : Tree} (own : P t)
      (children : ∀ child ∈ t.children, Within P counted below child)
      (room : below + t.rise counted ≤ bound) : Within P counted bound t

namespace Within

theorem mono (within : Within P counted bound t) (more : bound ≤ bound') :
    Within P counted bound' t := by
  cases within with
  | node own children room => exact .node own children (Nat.le_trans room more)

/-- Below a node that is no link is less room. -/
theorem inner (within : Within P counted bound t) (plain : t.links = false) :
    ∃ below, below + 1 ≤ bound ∧ ∀ child ∈ t.children, Within P counted below child := by
  cases within with
  | node _ children room =>
      rw [rise, plain, if_neg Bool.false_ne_true] at room
      exact ⟨_, room, children⟩

theorem every (within : Within P counted bound t) : t.Every P := by
  induction within with
  | node own _ _ ih => exact .node own ih

theorem height_le (within : Within P counted bound t) : t.height counted ≤ bound := by
  have most : ∀ {ns : List Nat} {n : Nat}, (∀ m ∈ ns, m ≤ n) → ns.foldr max 0 ≤ n := by
    intro ns n all
    induction ns with
    | nil => exact Nat.zero_le n
    | cons m ns ih =>
        obtain ⟨first, rest⟩ := List.forall_mem_cons.mp all
        exact Nat.max_le.mpr ⟨first, ih rest⟩
  induction within with
  | node _ _ room ih =>
      rw [height_eq]
      refine Nat.le_trans (Nat.add_le_add_right (most fun m member => ?_) _) room
      obtain ⟨child, inside, rfl⟩ := List.mem_map.mp member
      exact ih child inside

end Within

end MathScript.Tree
