import MathScript.Proofs.Diary

/-!
What folding leaves. A node is foldable if all that is needed to carry it out stands in it as number
literals. No node of a folded tree is foldable, wherever it stands, and the trees without foldable
nodes are those that folding leaves as they are; so there is nothing left for folding again.
-/

namespace MathScript

/-- The operations that make a number of numbers. -/
inductive Operation.OnNumbers : Operation → Prop
  | negate : OnNumbers .negate
  | not : OnNumbers .not
  | scalars (op : Op) : OnNumbers (.scalars op)
  | unary (f : Unary) : OnNumbers (.unary f)
  | binary (f : Binary) : OnNumbers (.binary f)
  | ternary (f : Ternary) : OnNumbers (.ternary f)
  | reduce (r : Reduction) : OnNumbers (.reduce r)

theorem Operation.onNumbers_iff {op : Operation} : op.OnNumbers ↔ op.isNumeric = true := by
  constructor
  · intro numbers
    cases numbers <;> rfl
  · intro numeric
    cases op <;> first | constructor | cases numeric

namespace Tree

/-- The name of a constant, an operation on number literals, and a choice by a number literal. -/
inductive Foldable : Tree → Prop
  | constant {b : Binding} (x : Float) (place : b.place = .constant x) : Foldable (.load b)
  | operation {op : Operation} (numbers : op.OnNumbers) (xs : List Float) :
      Foldable (.apply op (xs.map .number))
  | logic (op : Connective) (x y : Float) : Foldable (.logic op (.number x) (.number y))
  | branch (x : Float) (yes : Tree) (no : Option Tree) : Foldable (.branch (.number x) yes no)

/-! ### Literals -/

theorem literals?_number (xs : List Float) : literals? (xs.map .number) = some xs := by
  induction xs with
  | nil => rfl
  | cons x xs ih => simp [literals?, number?, ih]

/-- Folded trees that stand for numbers are these numbers. -/
theorem eq_number_of_literals {ts : List Tree} {xs : List Float}
    (literal : literals? (ts.map fold) = some xs) : ts.map fold = xs.map .number := by
  induction ts generalizing xs with
  | nil =>
      cases literal
      rfl
  | cons t ts ih =>
      simp only [List.map_cons, literals?] at literal
      split at literal
      · next x ys first rest =>
        cases literal
        rw [List.map_cons, List.map_cons, fold_number first, ih rest]
      · cases literal

/-! ### Folded trees -/

theorem not_foldable_fold (t : Tree) : ¬ t.fold.Foldable := by
  -- A choice that is made leaves one of its arms: hence an induction.
  induction t using children_induction with
  | step t ih =>
      cases t
      case load b =>
          rw [fold]
          split
          · rintro ⟨⟩
          · next other =>
            rintro ⟨x, place⟩
            exact other x place
      case apply op args =>
          rw [fold, foldApply]
          split
          · rintro ⟨⟩
          · next kept =>
            generalize foldList args = folded at kept
            rintro (_ | ⟨numbers, xs⟩)
            exact kept xs (Operation.onNumbers_iff.mp numbers) (literals?_number xs)
      case logic op left right =>
          rw [fold, foldLogic]
          split
          · rintro ⟨⟩
          · next kept =>
            generalize left.fold = l, right.fold = r at kept
            rintro (_ | _ | ⟨_, x, y⟩)
            exact kept x y rfl rfl
      case branch test yes no =>
          rw [fold, foldBranch]
          split
          · split
            · exact ih yes (by simp [children])
            · cases no with
              | none => rintro ⟨⟩
              | some n => exact ih n (by simp [children])
          · next kept =>
            generalize test.fold = c at kept
            rintro (_ | _ | _ | ⟨x, _, _⟩)
            cases kept
      all_goals
        rw [fold]
        rintro ⟨⟩

/-- Wherever a node of a folded tree stands, it is not foldable. -/
theorem every_fold (t : Tree) : t.fold.Every fun node => ¬ node.Foldable := by
  induction t using children_induction with
  | step t ih =>
      refine .node t.not_foldable_fold fun child member => ?_
      rcases fold_node t with null | ⟨x, number⟩ | recast | ⟨chosen, outside, same⟩
      · rw [null] at member
        cases member
      · rw [number] at member
        cases member
      · obtain ⟨plain, below, rfl⟩ := recast.child member
        exact ih plain below
      · rw [same] at member
        obtain ⟨-, below⟩ := ih chosen (mem_children.mpr (.inl outside))
        exact below child member

/-! ### Trees that are left as they are -/

theorem foldList_same {ts : List Tree} (same : ∀ t ∈ ts, t.fold = t) : foldList ts = ts := by
  rw [foldList_eq, List.map_congr_left same, List.map_id']

theorem foldOption_same {t : Option Tree} (same : ∀ u ∈ t.toList, u.fold = u) :
    foldOption t = t := by
  cases t with
  | none => rfl
  | some u => rw [foldOption, same u (by simp)]

theorem foldCases_same {cases : List (Tree × Tree)}
    (same : ∀ t ∈ cases.flatMap fun (test, body) => [test, body], t.fold = t) :
    foldCases cases = cases := by
  induction cases with
  | nil => rfl
  | cons c cases ih =>
      obtain ⟨test, body⟩ := c
      simp only [List.flatMap_cons, List.mem_append] at same
      rw [foldCases, same test (by simp), same body (by simp),
        ih fun t inside => same t (.inr inside)]

theorem foldTarget_same {target : Target Tree} (same : ∀ t ∈ target.indices, t.fold = t) :
    foldTarget target = target := by
  cases target with
  | whole b => rfl
  | element b index => rw [foldTarget, same index (by simp [Target.indices])]
  | range b first last =>
      simp only [Target.indices, List.mem_append] at same
      rw [foldTarget, foldOption_same fun t inside => same t (.inl inside),
        foldOption_same fun t inside => same t (.inr inside)]

/-- A node that is not foldable is left as it is if all that stands directly below it is. -/
theorem fold_node_same {t : Tree} (own : ¬ t.Foldable) (below : ∀ u ∈ t.children, u.fold = u) :
    t.fold = t := by
  -- One hypothesis for each child, in the form the lemmas above ask for.
  cases t <;> simp only [children, List.mem_append, List.mem_cons, List.not_mem_nil,
    or_false, forall_eq, or_imp, forall_and] at below
  case null | number | text | size | continueLoop => rw [fold]
  case load b =>
      rw [fold]
      split
      · next x place => exact absurd (.constant x place) own
      · rfl
  case apply op args =>
      rw [fold, foldList_same below, foldApply]
      split
      · next xs numeric literal =>
        have folded : args.map fold = args := foldList_eq args ▸ foldList_same below
        have literals : args = xs.map .number := by
          rw [← folded] at literal ⊢
          exact eq_number_of_literals literal
        subst literals
        exact absurd (.operation (Operation.onNumbers_iff.mpr numeric) xs) own
      · rfl
  case logic op left right =>
      rw [fold, foldLogic]
      split
      · next x y first second =>
        have l := fold_number first
        have r := fold_number second
        rw [below.1] at l
        rw [below.2] at r
        subst l r
        exact absurd (.logic op x y) own
      · rw [below.1, below.2]
  case branch test yes no =>
      rw [fold, foldBranch]
      split
      · next x literal =>
        have c := fold_number literal
        rw [below.1] at c
        subst c
        exact absurd (.branch x yes no) own
      · rw [below.1, below.2.1, foldOption_same below.2.2]
  case element b index => rw [fold, below]
  case slice b first last => rw [fold, foldOption_same below.1, foldOption_same below.2]
  case call callee args => rw [fold, foldList_same below]
  case switch cases default => rw [fold, foldCases_same below.1, foldOption_same below.2]
  case whileLoop test body => rw [fold, below.1, below.2]
  case forLoop first test step body =>
      obtain ⟨⟨⟨firsts, tests⟩, steps⟩, bodies⟩ := below
      rw [fold, foldOption_same firsts, foldOption_same tests, foldOption_same steps, bodies]
  case repeatLoop body stop => rw [fold, below.1, below.2]
  case breakLoop payload => rw [fold, foldOption_same below]
  case returnList items => rw [fold, foldList_same below]
  case sequence items => rw [fold, foldList_same below]
  case declare slot shape parts => rw [fold, foldList_same below]
  case assign target op value => rw [fold, foldTarget_same below.1, below.2]
  case swap left right => rw [fold, foldTarget_same below.1, foldTarget_same below.2]

/-- The trees that folding leaves as they are are those without foldable nodes. -/
theorem fold_eq_self_iff {t : Tree} : t.fold = t ↔ ∀ node ∈ t.nodes, ¬ node.Foldable := by
  rw [← every_iff]
  constructor
  · intro same
    exact same ▸ t.every_fold
  · intro every
    induction every with
    | node own _ ih => exact fold_node_same own ih

end Tree

/-- Folding is complete and idempotent: no node of a folded tree is the name of a constant, an
operation on number literals or a choice by a number literal, and folding it again changes
nothing. -/
theorem folding_leaves_nothing (t : Tree) :
    (∀ node ∈ t.fold.nodes, ¬ node.Foldable) ∧ t.fold.fold = t.fold := by
  have left := Tree.every_iff.mp t.every_fold
  exact ⟨left, Tree.fold_eq_self_iff.mpr left⟩

end MathScript
