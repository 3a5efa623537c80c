import MathScript.Proofs.Built
import MathScript.Proofs.Lockstep
import MathScript.Proofs.Shapes
import Mathlib.Data.List.Basic

/-!
What a built tree names and declares. Every name of a slot stands for what the slot was declared
as, every declaration of it is of that kind, and what is of the host is written only if the table
grants it. Folding brings no name and no declaration into a tree, so all this holds of what was
folded too.
-/

namespace MathScript

/-- Names and declarations are as laid out. -/
def Tree.LaidOut (offers : Grant → Prop) (layout : List Slot) (t : Tree) : Prop :=
  t.Every (Fits (fun b => ∃ live, b.InScope offers layout live)
    (fun i shape => layout[i]?.map Slot.kind = some shape.kind)
    fun n => ∃ name arity, offers (.call name (.composed n arity)))

section

variable {offers : Grant → Prop} {layout : List Slot} {live : List Nat}

theorem Built.fits {t : Tree} (built : Built offers layout live t) :
    t.Fits (fun b => ∃ live, b.InScope offers layout live)
      (fun i shape => layout[i]?.map Slot.kind = some shape.kind)
      fun n => ∃ name arity, offers (.call name (.composed n arity)) := by
  constructor
  · intro b member
    cases built with
    | load scope | size scope | element scope | slice scope =>
        obtain rfl := List.mem_singleton.mp member
        exact ⟨_, scope⟩
    | call allowed scope inner => exact ⟨_, (scope b member).1⟩
    | assign scope =>
        obtain rfl := List.mem_singleton.mp member
        exact ⟨_, scope⟩
    | swap leftScope rightScope =>
        rcases List.mem_pair.mp member with rfl | rfl
        · exact ⟨_, leftScope⟩
        · exact ⟨_, rightScope⟩
    | _ => cases member
  · intro d declared
    cases built with
    | declare laid inner =>
        obtain rfl := Option.mem_some.mp declared
        exact laid
    | _ => cases declared
  · intro n called
    cases built with
    | @call _ callee _ allowed =>
        cases callee with
        | composed name definition =>
            obtain rfl := List.mem_singleton.mp called
            exact ⟨_, _, allowed⟩
        | scalar | vararg | generic => cases called
    | _ => cases called

theorem Built.child {t child : Tree} (built : Built offers layout live t)
    (member : child ∈ t.children) : ∃ live', Built offers layout live' child := by
  cases built with
  | element scope indexable inner =>
      obtain rfl := List.mem_singleton.mp member
      exact ⟨_, inner⟩
  | slice scope indexable firsts lasts =>
      rcases List.mem_append.mp member with inside | inside
      · exact ⟨_, firsts child inside⟩
      · exact ⟨_, lasts child inside⟩
  | apply takes inner => exact ⟨_, inner child member⟩
  | logic lefts rights =>
      rcases List.mem_pair.mp member with rfl | rfl
      · exact ⟨_, lefts⟩
      · exact ⟨_, rights⟩
  | call allowed scope inner => exact ⟨_, inner child member⟩
  | branch tests yeses noes same =>
      simp only [Tree.children, List.mem_cons] at member
      rcases member with rfl | rfl | inside
      · exact ⟨_, tests⟩
      · exact ⟨_, yeses⟩
      · exact ⟨_, noes child inside⟩
  | switch tests bodies defaults same sameDefault =>
      rcases List.mem_append.mp member with inside | inside
      · obtain ⟨c, among, pair⟩ := List.mem_flatMap.mp inside
        rcases List.mem_pair.mp pair with rfl | rfl
        · exact ⟨_, tests c among⟩
        · exact ⟨_, bodies c among⟩
      · exact ⟨_, defaults child inside⟩
  | whileLoop tests bodies =>
      rcases List.mem_pair.mp member with rfl | rfl
      · exact ⟨_, tests⟩
      · exact ⟨_, bodies⟩
  | forLoop firsts tests steps bodies =>
      simp only [Tree.children, List.mem_append, List.mem_singleton] at member
      rcases member with ((inside | inside) | inside) | rfl
      · exact ⟨_, firsts child inside⟩
      · exact ⟨_, tests child inside⟩
      · exact ⟨_, steps child inside⟩
      · exact ⟨_, bodies⟩
  | repeatLoop bodies stops =>
      rcases List.mem_pair.mp member with rfl | rfl
      · exact ⟨_, bodies⟩
      · exact ⟨_, stops⟩
  | breakLoop inner => exact ⟨_, inner child member⟩
  | returnList inner => exact ⟨_, inner child member⟩
  | sequence inner =>
      obtain ⟨before, after, split⟩ := List.append_of_mem member
      exact ⟨_, inner before child after split⟩
  | declare laid inner => exact ⟨_, inner child member⟩
  | assign scope reach indices values =>
      rcases List.mem_append.mp member with inside | inside
      · exact ⟨_, indices child inside⟩
      · obtain rfl := List.mem_singleton.mp inside
        exact ⟨_, values⟩
  | swap leftScope rightScope leftReach rightReach same lefts rights =>
      rcases List.mem_append.mp member with inside | inside
      · exact ⟨_, lefts child inside⟩
      · exact ⟨_, rights child inside⟩
  | _ => cases member

theorem Built.laidOut {t : Tree} (built : Built offers layout live t) :
    t.LaidOut offers layout := by
  induction t using Tree.children_induction generalizing live with
  | step t ih =>
      refine .node built.fits fun child member => ?_
      obtain ⟨live', inner⟩ := built.child member
      exact ih child member inner

end

namespace Tree

/-- Folding brings no binding and no declaration into a node. -/
theorem Every.fold {binds : Binding → Prop} {slots : Nat → Shape → Prop} {defs : Nat → Prop}
    {t : Tree} (every : t.Every (Fits binds slots defs)) :
    t.fold.Every (Fits binds slots defs) := by
  induction every with
  | @node t own below ih =>
      rcases fold_node t with null | ⟨x, number⟩ | recast | ⟨child, outside, chosen⟩
      · rw [null]
        exact .node ⟨by simp [bindings], by simp [declaration?], by simp [calls]⟩
          (by simp [children])
      · rw [number]
        exact .node ⟨by simp [bindings], by simp [declaration?], by simp [calls]⟩
          (by simp [children])
      · refine .node ⟨recast.bindings ▸ own.bindings, recast.declaration ▸ own.declares,
          recast.calls ▸ own.calls⟩ ?_
        intro child member
        obtain ⟨plain, inside, rfl⟩ := recast.child member
        exact ih plain inside
      · rw [chosen]
        exact ih child (mem_children.mpr (.inl outside))

end Tree

end MathScript
