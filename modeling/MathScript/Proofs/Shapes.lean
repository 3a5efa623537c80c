import MathScript.Proofs.Built
import MathScript.Proofs.Folding

/-!
Shapes of nodes. What stands directly below a node is listed by what it is looked at for: in the
order of evaluation, with a tree that stands twice named once, or with the body of a loop apart
from what stays outside of it. Folding keeps a node in its shape with folded trees below it, or
leaves a literal or one of the trees below.
-/

namespace MathScript

namespace Target

open Classical in
/-- The trees of the indices, one that is both bounds of a range only once. -/
noncomputable def parts : Target Tree → List Tree
  | .range _ (some first) (some last) => if first = last then [first] else [first, last]
  | other => other.indices

theorem parts_sublist (target : Target Tree) : target.parts.Sublist target.indices := by
  unfold parts
  split
  · split
    · next first last same => simp [indices, same]
    · exact List.Sublist.refl _
  · exact List.Sublist.refl _

theorem indices_subset_parts (target : Target Tree) : target.indices ⊆ target.parts := by
  unfold parts
  split
  · split
    · next first last same => simp [indices, same]
    · exact List.Subset.refl _
  · exact List.Subset.refl _

end Target

namespace Tree

theorem children_switch (cases : List (Tree × Tree)) (default : Option Tree) :
    (switch cases default).children = cases.flatMap (fun c => [c.1, c.2]) ++ default.toList :=
  rfl

/-- The nodes directly below a node. -/
noncomputable def parts : Tree → List Tree
  | .assign target _ value => target.parts ++ [value]
  | .swap left right => left.parts ++ right.parts
  | other => other.children

theorem parts_sublist (t : Tree) : t.parts.Sublist t.children := by
  cases t
  case assign target op value => exact target.parts_sublist.append_right _
  case swap left right => exact left.parts_sublist.append right.parts_sublist
  all_goals exact List.Sublist.refl _

theorem children_subset_parts (t : Tree) : t.children ⊆ t.parts := by
  cases t
  case assign target op value =>
      exact List.append_subset.mpr ⟨List.subset_append_of_subset_left _ target.indices_subset_parts,
        List.subset_append_right _ _⟩
  case swap left right =>
      exact List.append_subset.mpr ⟨List.subset_append_of_subset_left _ left.indices_subset_parts,
        List.subset_append_of_subset_right _ right.indices_subset_parts⟩
  all_goals exact List.Subset.refl _

theorem sizeOf_lt_of_mem_parts {t part : Tree} (member : part ∈ t.parts) :
    sizeOf part < sizeOf t :=
  sizeOf_lt_of_mem_children (t.parts_sublist.subset member)

theorem nodes_eq (t : Tree) : t.nodes = t :: t.children.flatMap nodes := by
  rw [nodes]
  simp only [List.flatMap_def]
  congr 2
  simp

theorem mem_nodes_self (t : Tree) : t ∈ t.nodes := by
  rw [nodes_eq]
  exact List.mem_cons_self ..

theorem mem_nodes_child {root t child : Tree} (within : t ∈ root.nodes)
    (member : child ∈ t.children) : child ∈ root.nodes := by
  induction root using children_induction with
  | step root ih =>
      rw [nodes_eq] at within ⊢
      rcases List.mem_cons.mp within with rfl | below
      · exact List.mem_cons_of_mem _ (List.mem_flatMap.mpr ⟨child, member, mem_nodes_self child⟩)
      · obtain ⟨other, inside, deeper⟩ := List.mem_flatMap.mp below
        exact List.mem_cons_of_mem _
          (List.mem_flatMap.mpr ⟨other, inside, ih other inside deeper⟩)

theorem nodes_subset {root t : Tree} (within : t ∈ root.nodes) : t.nodes ⊆ root.nodes := by
  induction t using children_induction with
  | step t ih =>
      intro node inside
      rw [nodes_eq] at inside
      rcases List.mem_cons.mp inside with rfl | below
      · exact within
      · obtain ⟨child, member, deeper⟩ := List.mem_flatMap.mp below
        exact ih child member (mem_nodes_child within member) deeper

/-! ### Bodies of loops -/

/-- Whether a node ends a round of a loop around it. -/
def exits : Tree → Bool
  | .breakLoop _ | .continueLoop => true
  | _ => false

def body? : Tree → Option Tree
  | .whileLoop _ body | .forLoop _ _ _ body | .repeatLoop body _ => some body
  | _ => none

/-- The nodes directly below a node but for the body of a loop. -/
def heads : Tree → List Tree
  | .whileLoop test _ => [test]
  | .forLoop first test step _ => first.toList ++ test.toList ++ step.toList
  | .repeatLoop _ stop => [stop]
  | other => other.children

theorem mem_children {t child : Tree} :
    child ∈ t.children ↔ child ∈ t.heads ∨ child ∈ t.body?.toList := by
  cases t
  case forLoop first test step body =>
      simp only [children, heads, body?, List.mem_append, List.mem_singleton, Option.toList_some]
  all_goals simp [children, heads, body?, or_comm]

/-! ### What calls write back to -/

/-- What a call of a generic function writes back to are arguments that may be written, each in its
place. A constant is none of them, but its load may have been folded. -/
def HandsBack : Tree → Prop
  | .call (.generic _ _ _ writeback) args => ∀ (i : Nat) (b : Binding),
      writeback[i]? = some (some b) → b.writable = true ∧
        (args[i]? = some (.load b) ∨ ∃ x, b.place = .constant x)
  | _ => True

theorem HandsBack.fold_call {callee : Callee} {args : List Tree}
    (hands : (call callee args).HandsBack) : (call callee (foldList args)).HandsBack := by
  cases callee with
  | scalar | vararg | composed => trivial
  | generic name native overload writeback =>
      intro i b found
      obtain ⟨writable, argument | constant⟩ := hands i b found
      · refine ⟨writable, ?_⟩
        rw [foldList_eq, List.getElem?_map, argument, Option.map_some, fold]
        -- The load of a constant is the one that folding does away with.
        split
        · next x constant => exact .inr ⟨x, constant⟩
        · exact .inl rfl
      · exact ⟨writable, .inr constant⟩

/-! ### Folded nodes -/

/-- `t'` is the node `t` with what `f` makes of the trees below it. -/
structure Recast (f : Tree → Tree) (t t' : Tree) : Prop where
  bindings : t'.bindings = t.bindings
  declaration : t'.declaration? = t.declaration?
  calls : t'.calls = t.calls
  exits : t'.exits = t.exits
  parts : t'.parts.Sublist (t.parts.map f)
  heads : t'.heads = t.heads.map f
  body : t'.body? = t.body?.map f
  hands : t.HandsBack → t'.HandsBack

theorem Recast.declares {f : Tree → Tree} {t t' : Tree} (recast : Recast f t t') :
    t'.declares = t.declares := by
  rw [declares_eq, declares_eq, recast.declaration]

theorem Recast.child {f : Tree → Tree} {t t' child : Tree} (recast : Recast f t t')
    (member : child ∈ t'.children) : ∃ plain ∈ t.children, f plain = child := by
  rcases mem_children.mp member with outside | inside
  · rw [recast.heads] at outside
    obtain ⟨plain, below, rfl⟩ := List.mem_map.mp outside
    exact ⟨plain, mem_children.mpr (.inl below), rfl⟩
  · rw [recast.body, Option.toList_map] at inside
    obtain ⟨plain, below, rfl⟩ := List.mem_map.mp inside
    exact ⟨plain, mem_children.mpr (.inr below), rfl⟩

theorem indices_fold (target : Target Tree) :
    (foldTarget target).indices = target.indices.map fold := by
  cases target <;> simp [Target.indices, foldOption_eq, Option.toList_map]

theorem binding_fold (target : Target Tree) : (foldTarget target).binding = target.binding := by
  cases target <;> rfl

theorem parts_foldTarget (target : Target Tree) :
    (foldTarget target).parts.Sublist (target.parts.map fold) := by
  cases target with
  | whole b => exact List.Sublist.refl _
  | element b index => exact List.Sublist.refl _
  | range b first last =>
      cases first <;> cases last
      case some.some first last =>
          by_cases same : first = last
          · simp [foldTarget, foldOption, Target.parts, same]
          · simp only [foldTarget, foldOption, Target.parts, same, if_false]
            split <;> simp
      all_goals simp [foldTarget, foldOption, Target.parts, Target.indices]

/-- A folded node is a literal, the node in its shape, or one of the trees below it folded. -/
theorem fold_node (t : Tree) :
    t.fold = .null ∨ (∃ x, t.fold = .number x) ∨ Recast fold t t.fold ∨
      ∃ child ∈ t.heads, t.fold = child.fold := by
  cases t
  case load b =>
      rw [fold]
      split
      · exact .inr (.inl ⟨_, rfl⟩)
      · exact .inr (.inr (.inl ⟨rfl, rfl, rfl, rfl, List.Sublist.refl _, rfl, rfl, id⟩))
  case apply op args =>
      rw [fold, foldApply]
      split
      · exact .inr (.inl ⟨_, rfl⟩)
      · refine .inr (.inr (.inl ⟨rfl, rfl, rfl, rfl, ?_, foldList_eq args, rfl, id⟩))
        simp [Tree.parts, children, foldList_eq]
  case logic op left right =>
      rw [fold, foldLogic]
      split
      · exact .inr (.inl ⟨_, rfl⟩)
      · exact .inr (.inr (.inl ⟨rfl, rfl, rfl, rfl, List.Sublist.refl _, rfl, rfl, id⟩))
  case branch test yes no =>
      rw [fold, foldBranch]
      split
      · split
        · exact .inr (.inr (.inr ⟨yes, by simp [heads, children], rfl⟩))
        · cases no with
          | none => exact .inl rfl
          | some n => exact .inr (.inr (.inr ⟨n, by simp [heads, children], rfl⟩))
      · refine .inr (.inr (.inl ⟨rfl, rfl, rfl, rfl, ?_, ?_, rfl, id⟩)) <;>
          simp [Tree.parts, heads, children, foldOption_eq, Option.toList_map]
  case switch cases default =>
      have below : (switch cases default).fold.children =
          (switch cases default).children.map fold := by
        have bodies : (foldCases cases).flatMap (fun c => [c.1, c.2]) =
            (cases.flatMap fun c => [c.1, c.2]).map fold := by
          rw [foldCases_eq, List.flatMap_map, List.map_flatMap]
          rfl
        rw [fold, children_switch, children_switch, bodies, foldOption_eq, Option.toList_map,
          List.map_append]
      refine .inr (.inr (.inl ⟨rfl, rfl, rfl, rfl, ?_, below, rfl, id⟩))
      change (switch cases default).fold.children.Sublist ((switch cases default).children.map fold)
      simp only [below, List.Sublist.refl]
  case assign target op value =>
      refine .inr (.inr (.inl ⟨?_, rfl, rfl, rfl, ?_, ?_, rfl, id⟩))
      · simp [Tree.bindings, binding_fold]
      · rw [fold, Tree.parts, Tree.parts, List.map_append]
        exact (parts_foldTarget target).append_right _
      · simp [heads, children, indices_fold]
  case swap left right =>
      refine .inr (.inr (.inl ⟨?_, rfl, rfl, rfl, ?_, ?_, rfl, id⟩))
      · simp [Tree.bindings, binding_fold]
      · rw [fold, Tree.parts, Tree.parts, List.map_append]
        exact (parts_foldTarget left).append (parts_foldTarget right)
      · simp [heads, children, indices_fold]
  case call callee args =>
      refine .inr (.inr (.inl ⟨rfl, rfl, rfl, rfl, ?_, ?_, rfl, HandsBack.fold_call⟩)) <;>
        simp [Tree.parts, heads, children, foldList_eq]
  all_goals
    refine .inr (.inr (.inl ⟨rfl, rfl, rfl, rfl, ?_, ?_, rfl, id⟩)) <;>
      simp [Tree.parts, heads, children, foldList_eq, foldOption_eq, Option.toList_map]

end Tree

end MathScript
