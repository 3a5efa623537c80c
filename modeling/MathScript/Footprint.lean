import MathScript.Tree

/-!
The nodes of a tree, and the host variables that its nodes read or write.
-/

namespace MathScript.Tree

theorem sizeOf_option_lt {a : Option Tree} {t : Tree} (member : t ∈ a.toList) :
    sizeOf t < sizeOf a := by
  cases a with
  | none => simp at member
  | some u =>
      obtain rfl : t = u := by simpa using member
      rw [Option.some.sizeOf_spec]
      omega

theorem sizeOf_cases_lt {cases : List (Tree × Tree)} {t : Tree}
    (member : t ∈ cases.flatMap fun (test, body) => [test, body]) : sizeOf t < sizeOf cases := by
  obtain ⟨⟨test, body⟩, inside, pair⟩ := List.mem_flatMap.mp member
  have smaller := List.sizeOf_lt_of_mem inside
  rw [Prod.mk.sizeOf_spec] at smaller
  simp only [List.mem_cons, List.not_mem_nil, or_false] at pair
  rcases pair with rfl | rfl <;> omega

theorem sizeOf_target_lt {target : Target Tree} {t : Tree} (member : t ∈ target.indices) :
    sizeOf t < sizeOf target := by
  cases target with
  | whole b => simp [Target.indices] at member
  | element b index =>
      obtain rfl : t = index := by simpa [Target.indices] using member
      rw [Target.element.sizeOf_spec]
      omega
  | range b first last =>
      rw [Target.range.sizeOf_spec]
      rcases List.mem_append.mp member with h | h
      · have := sizeOf_option_lt h
        omega
      · have := sizeOf_option_lt h
        omega

theorem sizeOf_lt_of_mem_children {child parent : Tree} (member : child ∈ parent.children) :
    sizeOf child < sizeOf parent := by
  cases parent with
  | null | number | text | load | size | continueLoop => simp [children] at member
  | element b index =>
      obtain rfl : child = index := by simpa [children] using member
      rw [element.sizeOf_spec]
      omega
  | slice b first last =>
      rw [slice.sizeOf_spec]
      rcases List.mem_append.mp member with h | h
      · have := sizeOf_option_lt h
        omega
      · have := sizeOf_option_lt h
        omega
  | apply op args =>
      have : sizeOf child < sizeOf args := List.sizeOf_lt_of_mem member
      rw [apply.sizeOf_spec]
      omega
  | logic op left right =>
      simp only [children, List.mem_cons, List.not_mem_nil, or_false] at member
      rw [logic.sizeOf_spec]
      rcases member with rfl | rfl <;> omega
  | call callee args =>
      have : sizeOf child < sizeOf args := List.sizeOf_lt_of_mem member
      rw [call.sizeOf_spec]
      omega
  | branch test yes no =>
      simp only [children, List.mem_cons] at member
      rw [branch.sizeOf_spec]
      rcases member with rfl | rfl | h
      · omega
      · omega
      · have := sizeOf_option_lt h
        omega
  | switch cases default =>
      rw [switch.sizeOf_spec]
      rcases List.mem_append.mp member with h | h
      · have := sizeOf_cases_lt h
        omega
      · have := sizeOf_option_lt h
        omega
  | whileLoop test body =>
      simp only [children, List.mem_cons, List.not_mem_nil, or_false] at member
      rw [whileLoop.sizeOf_spec]
      rcases member with rfl | rfl <;> omega
  | forLoop first test step body =>
      simp only [children, List.mem_append, List.mem_singleton] at member
      rw [forLoop.sizeOf_spec]
      rcases member with ((h | h) | h) | rfl
      · have := sizeOf_option_lt h
        omega
      · have := sizeOf_option_lt h
        omega
      · have := sizeOf_option_lt h
        omega
      · omega
  | repeatLoop body stop =>
      simp only [children, List.mem_cons, List.not_mem_nil, or_false] at member
      rw [repeatLoop.sizeOf_spec]
      rcases member with rfl | rfl <;> omega
  | breakLoop payload =>
      have := sizeOf_option_lt member
      rw [breakLoop.sizeOf_spec]
      omega
  | returnList items =>
      have : sizeOf child < sizeOf items := List.sizeOf_lt_of_mem member
      rw [returnList.sizeOf_spec]
      omega
  | sequence items =>
      have : sizeOf child < sizeOf items := List.sizeOf_lt_of_mem member
      rw [sequence.sizeOf_spec]
      omega
  | declare slot shape parts =>
      have : sizeOf child < sizeOf parts := List.sizeOf_lt_of_mem member
      rw [declare.sizeOf_spec]
      omega
  | assign target op value =>
      simp only [children, List.mem_append, List.mem_singleton] at member
      rw [assign.sizeOf_spec]
      rcases member with h | rfl
      · have := sizeOf_target_lt h
        omega
      · omega
  | swap left right =>
      rw [swap.sizeOf_spec]
      rcases List.mem_append.mp member with h | h
      · have := sizeOf_target_lt h
        omega
      · have := sizeOf_target_lt h
        omega

/-- A node and all nodes below it. -/
def nodes (t : Tree) : List Tree :=
  t :: t.children.attach.flatMap fun ⟨child, member⟩ =>
    have := sizeOf_lt_of_mem_children member
    child.nodes
termination_by sizeOf t

def hostNames (t : Tree) : List String :=
  ((t.nodes.flatMap bindings).filter fun b => b.place.isHost).map Binding.name

/-- The names of the host variables a tree reads or writes, each once, in ascending order. -/
def variableNames (t : Tree) : List String :=
  (t.hostNames.mergeSort fun a b => !(b < a)).eraseReps

end MathScript.Tree
