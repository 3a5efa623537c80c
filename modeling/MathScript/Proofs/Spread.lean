import MathScript.Proofs.Shapes
import Mathlib.Data.List.Flatten

/-!
The slots that the declarations of a tree take. An element of a string as a target is a range
with one index for both of its bounds, the tree of that index standing twice; its declarations
count once. Trees are spread over a range of slots if their declarations take slots of the
range, no two the same.
-/

namespace MathScript

namespace Tree

/-- The slots of all declarations in a tree. -/
noncomputable def declared (t : Tree) : List Nat :=
  t.declares ++ t.parts.attach.flatMap fun ⟨part, member⟩ =>
    have := sizeOf_lt_of_mem_parts member
    part.declared
termination_by sizeOf t

theorem declared_eq (t : Tree) : t.declared = t.declares ++ t.parts.flatMap declared := by
  rw [declared]
  congr 1
  simp only [List.flatMap_def]
  congr 1
  simp

/-- Folding may drop declarations and moves none. -/
theorem declared_fold (t : Tree) : t.fold.declared.Sublist t.declared := by
  induction t using children_induction with
  | step t ih =>
      have parts : ∀ part ∈ t.parts, part.fold.declared.Sublist part.declared :=
        fun part inside => ih part (t.parts_sublist.subset inside)
      have gone : ∀ u : Tree, u.declares = [] → u.parts = [] → u.declared.Sublist t.declared := by
        intro u undeclared leaf
        simp [declared_eq u, undeclared, leaf]
      rcases fold_node t with null | ⟨x, number⟩ | recast | ⟨child, outside, chosen⟩
      · exact null ▸ gone .null rfl rfl
      · exact number ▸ gone (.number x) rfl rfl
      · rw [declared_eq t.fold, declared_eq t, recast.declares]
        refine List.Sublist.append_left ?_ _
        have folded := recast.parts.flatMap declared
        rw [List.flatMap_map] at folded
        exact folded.trans (List.Sublist.flatMap_right _ parts)
      · have part : child ∈ t.parts := t.children_subset_parts (mem_children.mpr (.inl outside))
        have within : child.declared.Sublist (t.parts.flatMap declared) :=
          List.sublist_flatten_of_mem (List.mem_map_of_mem part)
        rw [chosen, declared_eq t]
        exact ((parts child part).trans within).trans (List.sublist_append_right _ _)

end Tree

open Tree

structure Spread (low high : Nat) (ts : List Tree) : Prop where
  nodup : (ts.flatMap declared).Nodup
  within : ∀ i ∈ ts.flatMap declared, low ≤ i ∧ i < high

namespace Spread

variable {low middle high : Nat} {ts us : List Tree} {t : Tree}

theorem nil : Spread low high [] := ⟨by simp, by simp⟩

theorem append (first : Spread low middle ts) (second : Spread middle high us)
    (ordered : low ≤ middle) (rest : middle ≤ high) : Spread low high (ts ++ us) := by
  constructor
  · rw [List.flatMap_append, List.nodup_append]
    -- The ranges of the two do not meet.
    refine ⟨first.nodup, second.nodup, fun i inside j other same => ?_⟩
    have below := first.within i inside
    have above := second.within j other
    omega
  · intro i inside
    rw [List.flatMap_append, List.mem_append] at inside
    rcases inside with left | right
    · have := first.within i left
      omega
    · have := second.within i right
      omega

theorem of_sublist (spread : Spread low high ts)
    (fewer : (us.flatMap declared).Sublist (ts.flatMap declared)) : Spread low high us :=
  ⟨spread.nodup.sublist fewer, fun i inside => spread.within i (fewer.subset inside)⟩

theorem perm (spread : Spread low high ts) (same : ts.Perm us) : Spread low high us := by
  have slots := same.flatMap_right declared
  exact ⟨slots.nodup_iff.mp spread.nodup,
    fun i inside => spread.within i (slots.mem_iff.mpr inside)⟩

/-- A node of spread parts that declares nothing itself. -/
theorem node (spread : Spread low high ts) (undeclared : t.declares = [])
    (fewer : t.parts.Sublist ts) : Spread low high [t] := by
  apply spread.of_sublist
  simp only [List.flatMap_singleton, declared_eq t, undeclared, List.nil_append]
  exact fewer.flatMap declared

theorem declaration {slot : Nat} {shape : Shape} (spread : Spread low slot ts)
    (ordered : low ≤ slot) : Spread low (slot + 1) [.declare slot shape ts] := by
  have slots_eq : [Tree.declare slot shape ts].flatMap declared = slot :: ts.flatMap declared := by
    rw [List.flatMap_singleton, declared_eq]
    rfl
  constructor
  · rw [slots_eq, List.nodup_cons]
    -- The slot of the declaration is the first one behind those of its parts.
    refine ⟨fun inside => ?_, spread.nodup⟩
    have := spread.within slot inside
    omega
  · intro i inside
    rw [slots_eq] at inside
    rcases List.mem_cons.mp inside with rfl | inner
    · omega
    · have := spread.within i inner
      omega

end Spread

end MathScript
