import MathScript.Proofs.Comparing
import MathScript.Proofs.Declarations

/-!
What declared vectors are sized to. A length that is asked for is held against the limit as a
double, and the values of a literal are counted. A length that is not asked for is the number of the
values, whatever the limit is.
-/

namespace MathScript

/-- The length is within the limit, where the limit is a double. -/
def Allows (limit length : Nat) : Prop :=
  Binary64.value? limit.toFloat = some (limit : ℚ) → length ≤ limit

/-- A vector has an element, and room for the values it is given. It is as long as the limit allows,
or as long as the list of its values. -/
structure Sized (limit length : Nat) (fill : Fill) (given : Nat) : Prop where
  nonempty : 0 < length
  room : fill = .literal → given ≤ length
  allowed : Allows limit length ∨ fill = .literal ∧ length = given

/-- Every limit of 53 bits is a double. -/
theorem Allows.le {limit length : Nat} (allows : Allows limit length) (short : limit < 2 ^ 53) :
    length ≤ limit :=
  allows (Binary64.value_toFloat short).1

namespace Tree

variable {limit : Nat} {t : Tree}

/-- A vector that a node declares has its size. -/
def HasSize (limit : Nat) (t : Tree) : Prop :=
  ∀ slot length fill, t.declaration? = some (slot, .vector length fill) →
    Sized limit length fill t.children.length

theorem hasSize_of_undeclared (undeclared : t.declares = []) : t.HasSize limit := by
  intro slot length fill declared
  rw [declares_eq, declared] at undeclared
  cases undeclared

theorem eq_declare {slot : Nat} {shape : Shape} (declared : t.declaration? = some (slot, shape)) :
    ∃ parts, t = .declare slot shape parts := by
  cases t <;> cases declared
  exact ⟨_, rfl⟩

theorem HasSize.recast {f : Tree → Tree} {t' : Tree} (size : t.HasSize limit)
    (recast : Recast f t t') : t'.HasSize limit := by
  intro slot length fill declared
  have declared' := recast.declaration ▸ declared
  have sized := size slot length fill declared'
  obtain ⟨parts, rfl⟩ := eq_declare declared
  obtain ⟨parts', rfl⟩ := eq_declare declared'
  have below : parts = parts'.map f := recast.heads
  rwa [children, below, List.length_map]

theorem Every.sizes_fold (every : t.Every (HasSize limit)) : t.fold.Every (HasSize limit) := by
  induction every with
  | @node t own below ih =>
      rcases fold_node t with null | ⟨x, number⟩ | recast | ⟨child, outside, chosen⟩
      · rw [null]
        exact .node (hasSize_of_undeclared rfl) (by simp [children])
      · rw [number]
        exact .node (hasSize_of_undeclared rfl) (by simp [children])
      · refine .node (own.recast recast) fun child member => ?_
        obtain ⟨plain, inside, rfl⟩ := recast.child member
        exact ih plain inside
      · rw [chosen]
        exact ih child (mem_children.mpr (.inl outside))

end Tree

namespace Parse

open Binary64

variable (source : Source)

/-- Whatever the number is, its whole part is a length that the limit allows. -/
theorem gives_vectorLength (size : Tree) (position : Nat) :
    Gives (vectorLength source size position) fun n =>
      0 < n ∧ Allows source.limits.vectorSize n := by
  unfold vectorLength
  split
  · next x _ =>
      dsimp only
      split
      · exact gives_fail source _ _
      · next within =>
          split
          · next fits =>
              obtain ⟨least, -, finite⟩ := fits
              obtain ⟨v, known⟩ := value_of_isFinite finite
              have one : 1 ≤ v := (le_iff_value value_one known).mp least
              refine gives_pure ?_
              rw [truncated_of_value known, Option.getD_some, Index.toNat_truncation]
              refine ⟨Nat.floor_pos.mpr one, fun exact => ?_⟩
              have most : v ≤ source.limits.vectorSize := by
                by_contra above
                exact within ⟨(lt_iff_value exact known).mpr (not_le.mp above), finite⟩
              exact Nat.floor_le_of_le most
          · exact gives_fail source _ _
  · exact gives_fail source _ _

theorem gives_checkCount (count : Nat) (name : String) (length : Option Nat) (position : Nat) :
    Gives (checkCount source count name length position) fun _ => ∀ n ∈ length, count ≤ n := by
  cases length with
  | none => exact gives_pure (by simp)
  | some n =>
      unfold checkCount
      dsimp only
      split
      · exact gives_fail source _ _
      · next enough => exact gives_pure (by simpa using enough)

end Parse

end MathScript
