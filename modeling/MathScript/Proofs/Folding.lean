import MathScript.Fold
import MathScript.Proofs.Walk

/-!
Walks of folded trees. A settled tree is the tree itself or the folded tree. Over kernels whose
steps agree the walk of a settled tree agrees with the walk of the tree: a literal that stands
for an operation yields what the operation yields, and the right side passes the nodes the left
one has lost without a trace in what the relation looks at.
-/

namespace MathScript

/-- What a target is over the results of a function on its indices. -/
def Target.map {α β : Type} (f : α → β) : Target α → Target β
  | .whole b => .whole b
  | .element b index => .element b (f index)
  | .range b first last => .range b (first.map f) (last.map f)

namespace Tree

theorem foldOption_eq (t : Option Tree) : foldOption t = t.map fold := by
  cases t <;> rfl

theorem foldList_eq (ts : List Tree) : foldList ts = ts.map fold := by
  induction ts with
  | nil => rfl
  | cons t ts ih => simp only [foldList, ih, List.map_cons]

theorem foldCases_eq (cases : List (Tree × Tree)) :
    foldCases cases = cases.map (Prod.map fold fold) := by
  induction cases with
  | nil => rfl
  | cons c cases ih => simp only [foldCases, ih, List.map_cons, Prod.map]

theorem foldTarget_eq (target : Target Tree) : foldTarget target = target.map fold := by
  cases target <;> simp only [foldTarget, foldOption_eq, Target.map]

/-- A folded tree that stands for a number is that number. -/
theorem fold_number {t : Tree} {x : Float} (stands : t.fold.number? = some x) :
    t.fold = .number x := by
  -- A branch folds to one of its arms, and the arm may be the number: hence an induction.
  induction t using children_induction with
  | step t ih =>
      cases t
      case number y => simpa [fold, number?] using stands
      case load b =>
          obtain ⟨name, place, writable⟩ := b
          cases place <;> simp_all [fold, number?]
      case apply op args =>
          simp only [fold, foldApply] at stands ⊢
          split at stands
          · simpa [number?] using stands
          · simp [number?] at stands
      case logic op left right =>
          simp only [fold, foldLogic] at stands ⊢
          split at stands
          · simpa [number?] using stands
          · simp [number?] at stands
      case branch test yes no =>
          simp only [fold, foldBranch] at stands ⊢
          cases literal : test.fold.number? with
          | none =>
              rw [literal] at stands
              simp [number?] at stands
          | some y =>
              simp only [literal] at stands ⊢
              cases holds : isTrue y with
              | true =>
                  simp only [holds, if_true] at stands ⊢
                  exact ih yes (by simp [children]) stands
              | false =>
                  cases no with
                  | none => simp [holds, foldOption, number?] at stands
                  | some n =>
                      simp only [holds, foldOption, Option.getD_some] at stands ⊢
                      exact ih n (by simp [children]) stands
      all_goals simp [fold, number?] at stands

/-- The tree that is run: the folded one if `folding`. -/
def settle (folding : Bool) : Tree → Tree := if folding then fold else id

@[simp] theorem settle_false : settle false = id := rfl

@[simp] theorem settle_true : settle true = fold := rfl

section

variable (folding : Bool)

theorem settle_of_fold {t : Tree} (unchanged : t.fold = t) : settle folding t = t := by
  cases folding
  · rfl
  · exact unchanged

theorem settle_element (b : Binding) (index : Tree) :
    settle folding (.element b index) = .element b (settle folding index) := by
  cases folding <;> simp [fold]

theorem settle_slice (b : Binding) (first last : Option Tree) :
    settle folding (.slice b first last) =
      .slice b (first.map (settle folding)) (last.map (settle folding)) := by
  cases folding <;> simp [fold, foldOption_eq]

theorem settle_call (callee : Callee) (args : List Tree) :
    settle folding (.call callee args) = .call callee (args.map (settle folding)) := by
  cases folding <;> simp [fold, foldList_eq]

theorem settle_switch (cases : List (Tree × Tree)) (default : Option Tree) :
    settle folding (.switch cases default) =
      .switch (cases.map (Prod.map (settle folding) (settle folding)))
        (default.map (settle folding)) := by
  cases folding <;> simp [fold, foldCases_eq, foldOption_eq]

theorem settle_whileLoop (test body : Tree) :
    settle folding (.whileLoop test body) =
      .whileLoop (settle folding test) (settle folding body) := by
  cases folding <;> simp [fold]

theorem settle_forLoop (first test step : Option Tree) (body : Tree) :
    settle folding (.forLoop first test step body) =
      .forLoop (first.map (settle folding)) (test.map (settle folding))
        (step.map (settle folding)) (settle folding body) := by
  cases folding <;> simp [fold, foldOption_eq]

theorem settle_repeatLoop (body stop : Tree) :
    settle folding (.repeatLoop body stop) =
      .repeatLoop (settle folding body) (settle folding stop) := by
  cases folding <;> simp [fold]

theorem settle_breakLoop (payload : Option Tree) :
    settle folding (.breakLoop payload) = .breakLoop (payload.map (settle folding)) := by
  cases folding <;> simp [fold, foldOption_eq]

theorem settle_returnList (items : List Tree) :
    settle folding (.returnList items) = .returnList (items.map (settle folding)) := by
  cases folding <;> simp [fold, foldList_eq]

theorem settle_sequence (items : List Tree) :
    settle folding (.sequence items) = .sequence (items.map (settle folding)) := by
  cases folding <;> simp [fold, foldList_eq]

theorem settle_declare (slot : Nat) (shape : Shape) (parts : List Tree) :
    settle folding (.declare slot shape parts) =
      .declare slot shape (parts.map (settle folding)) := by
  cases folding <;> simp [fold, foldList_eq]

theorem Target.map_id (target : Target Tree) : target.map id = target := by
  cases target <;> simp [Target.map]

theorem settle_assign (target : Target Tree) (op : AssignOp) (value : Tree) :
    settle folding (.assign target op value) =
      .assign (target.map (settle folding)) op (settle folding value) := by
  cases folding <;> simp [fold, foldTarget_eq, Target.map_id]

theorem settle_swap (left right : Target Tree) :
    settle folding (.swap left right) =
      .swap (left.map (settle folding)) (right.map (settle folding)) := by
  cases folding <;> simp [fold, foldTarget_eq, Target.map_id]

/-! A node with a rule of its own is kept with its parts settled, or the rule applies. -/

theorem settle_load (b : Binding) :
    settle folding (.load b) = .load b ∨
      ∃ x, b.place = .constant x ∧ settle folding (.load b) = .number x := by
  obtain ⟨name, place, writable⟩ := b
  cases folding <;> cases place <;> simp [fold]

theorem settle_apply (op : Operation) (args : List Tree) :
    settle folding (.apply op args) = .apply op (args.map (settle folding)) ∨
      folding = true ∧ op.isNumeric = true ∧ ∃ xs, literals? (args.map fold) = some xs ∧
        settle folding (.apply op args) = .number (op.result (xs.map .scalar)).asScalar := by
  cases folding with
  | false => simp
  | true =>
      simp only [settle_true, fold, foldList_eq, foldApply]
      split <;> simp_all

theorem settle_logic (op : Connective) (left right : Tree) :
    settle folding (.logic op left right) =
        .logic op (settle folding left) (settle folding right) ∨
      folding = true ∧ ∃ x y, left.fold = .number x ∧ right.fold = .number y ∧
        settle folding (.logic op left right) = .number (op.op.apply x y) := by
  cases folding with
  | false => simp
  | true =>
      simp only [settle_true, fold, foldLogic]
      split
      · next x y first second =>
          exact .inr ⟨trivial, x, y, fold_number first, fold_number second, rfl⟩
      · exact .inl rfl

theorem settle_branch (test yes : Tree) (no : Option Tree) :
    settle folding (.branch test yes no) =
        .branch (settle folding test) (settle folding yes) (no.map (settle folding)) ∨
      folding = true ∧ ∃ x, test.fold = .number x ∧
        settle folding (.branch test yes no) =
          if isTrue x then yes.fold else (no.map fold).getD .null := by
  cases folding with
  | false => simp
  | true =>
      simp only [settle_true, fold, foldBranch, foldOption_eq]
      split
      · next x literal => exact .inr ⟨trivial, x, fold_number literal, rfl⟩
      · exact .inl rfl

end

end Tree

end MathScript
