import MathScript.Proofs.Shapes

/-!
Where breaks and continues stand. The body of a loop is inside of the loop; its condition, its
first part and its step are where the loop itself is. A tree is steered at a level if whatever
breaks or continues in it does so inside of a loop: a loop of the tree or one of those around it,
whose number is the level; and if its calls write back to nothing but their arguments. Folding
leaves everything inside of the loops it was in.
-/

namespace MathScript.Tree

inductive Steered : Nat → Tree → Prop
  | node {level : Nat} {t : Tree} (exit : t.exits = true → 0 < level) (hands : t.HandsBack)
      (heads : ∀ child ∈ t.heads, Steered level child)
      (body : ∀ child ∈ t.body?.toList, Steered (level + 1) child) : Steered level t

namespace Steered

variable {level level' : Nat} {t : Tree}

theorem exit (steered : Steered level t) (leaves : t.exits = true) : 0 < level := by
  cases steered with
  | node exit => exact exit leaves

theorem hands (steered : Steered level t) : t.HandsBack := by
  cases steered with
  | node _ hands => exact hands

theorem head {child : Tree} (steered : Steered level t) (member : child ∈ t.heads) :
    Steered level child := by
  cases steered with
  | node _ _ heads => exact heads child member

theorem body {child : Tree} (steered : Steered level t) (member : t.body? = some child) :
    Steered (level + 1) child := by
  cases steered with
  | node _ _ _ body => exact body child (by simp [member])

theorem mono (steered : Steered level t) (more : level ≤ level') : Steered level' t := by
  induction steered generalizing level' with
  | node exit hands _ _ heads bodies =>
      exact .node (fun leaves => Nat.lt_of_lt_of_le (exit leaves) more) hands
        (fun child member => heads child member more)
        fun child member => bodies child member (Nat.succ_le_succ more)

/-- Inside of one more loop everything may stand that may stand around it. -/
theorem of_children (exit : t.exits = true → 0 < level) (hands : t.HandsBack)
    (children : ∀ child ∈ t.children, Steered level child) : Steered level t :=
  .node exit hands (fun child member => children child (mem_children.mpr (.inl member)))
    fun child member => (children child (mem_children.mpr (.inr member))).mono (Nat.le_succ level)

theorem leaf (exit : t.exits = true → 0 < level) (hands : t.HandsBack)
    (childless : t.children = []) : Steered level t :=
  of_children exit hands (by simp [childless])

theorem fold (steered : Steered level t) : Steered level t.fold := by
  induction steered with
  | @node level t exit hands _ _ heads bodies =>
      rcases fold_node t with null | ⟨x, number⟩ | recast | ⟨child, outside, chosen⟩
      · rw [null]
        exact leaf (by simp [exits]) trivial rfl
      · rw [number]
        exact leaf (by simp [exits]) trivial rfl
      · refine .node (recast.exits ▸ exit) (recast.hands hands) (fun child member => ?_) fun child member => ?_
        · rw [recast.heads] at member
          obtain ⟨plain, below, rfl⟩ := List.mem_map.mp member
          exact heads plain below
        · rw [recast.body, Option.toList_map] at member
          obtain ⟨plain, below, rfl⟩ := List.mem_map.mp member
          exact bodies plain below
      · rw [chosen]
        exact heads child outside

theorem settle (folding : Bool) (steered : Steered level t) :
    Steered level (Tree.settle folding t) := by
  cases folding
  · exact steered
  · exact steered.fold

end Steered

end MathScript.Tree
