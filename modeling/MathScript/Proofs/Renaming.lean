import MathScript.Parse.Statement
import MathScript.Proofs.Folding

/-!
Trees whose locals are named otherwise. What a program calls a local is recorded in the bindings of
its tree and nowhere else; where a binding stands and whether it may be written is not a matter of
its name. So a tree that is named otherwise has the kind, the places and the literals that it had,
and folds to what the folded tree is when it is named otherwise.
-/

namespace MathScript

/-- The new names of slots; a slot that has none keeps its name. -/
abbrev Naming := Nat → Option String

def Binding.rename (naming : Naming) (b : Binding) : Binding :=
  match b.place with
  | .slot index _ => { b with name := (naming index).getD b.name }
  | _ => b

/-- Only what is written back is named. -/
def Callee.rename (naming : Naming) : Callee → Callee
  | .generic name native overload writeback =>
      .generic name native overload (writeback.map (Option.map (Binding.rename naming)))
  | other => other

/-- The indices stay as they are given. -/
def Target.rename {α : Type} (naming : Naming) : Target α → Target α
  | .whole b => .whole (b.rename naming)
  | .element b index => .element (b.rename naming) index
  | .range b first last => .range (b.rename naming) first last

namespace Tree

mutual

def rename (naming : Naming) : Tree → Tree
  | .load b => .load (b.rename naming)
  | .element b index => .element (b.rename naming) (index.rename naming)
  | .slice b first last =>
      .slice (b.rename naming) (renameOption naming first) (renameOption naming last)
  | .size b => .size (b.rename naming)
  | .apply op args => .apply op (renameList naming args)
  | .logic op left right => .logic op (left.rename naming) (right.rename naming)
  | .call callee args => .call (callee.rename naming) (renameList naming args)
  | .branch test yes no =>
      .branch (test.rename naming) (yes.rename naming) (renameOption naming no)
  | .switch cases default => .switch (renameCases naming cases) (renameOption naming default)
  | .whileLoop test body => .whileLoop (test.rename naming) (body.rename naming)
  | .forLoop first test step body =>
      .forLoop (renameOption naming first) (renameOption naming test) (renameOption naming step)
        (body.rename naming)
  | .repeatLoop body stop => .repeatLoop (body.rename naming) (stop.rename naming)
  | .breakLoop payload => .breakLoop (renameOption naming payload)
  | .returnList items => .returnList (renameList naming items)
  | .sequence items => .sequence (renameList naming items)
  | .declare slot shape parts => .declare slot shape (renameList naming parts)
  | .assign target op value => .assign (renameTarget naming target) op (value.rename naming)
  | .swap left right => .swap (renameTarget naming left) (renameTarget naming right)
  | .null => .null
  | .number x => .number x
  | .text s => .text s
  | .continueLoop => .continueLoop

def renameOption (naming : Naming) : Option Tree → Option Tree
  | none => none
  | some t => some (t.rename naming)

def renameList (naming : Naming) : List Tree → List Tree
  | [] => []
  | t :: ts => t.rename naming :: renameList naming ts

def renameCases (naming : Naming) : List (Tree × Tree) → List (Tree × Tree)
  | [] => []
  | (test, body) :: cases => (test.rename naming, body.rename naming) :: renameCases naming cases

def renameTarget (naming : Naming) : Target Tree → Target Tree
  | .whole b => .whole (b.rename naming)
  | .element b index => .element (b.rename naming) (index.rename naming)
  | .range b first last =>
      .range (b.rename naming) (renameOption naming first) (renameOption naming last)

end

attribute [simp] rename

end Tree

def Typed.rename (naming : Naming) (node : Typed) : Typed :=
  { node with tree := node.tree.rename naming }

def Parse.Cases.rename (naming : Naming) (c : Cases) : Cases :=
  { c with
    cases := c.cases.map (Prod.map (Tree.rename naming) (Tree.rename naming))
    default := c.default.map (Tree.rename naming) }

def Program.rename (naming : Naming) (p : Program) : Program :=
  { p with tree := p.tree.rename naming }

variable (naming : Naming)

/-! ### Bindings -/

namespace Binding

@[simp] theorem place_rename (b : Binding) : (b.rename naming).place = b.place := by
  unfold rename
  split <;> rfl

@[simp] theorem kind_rename (b : Binding) : (b.rename naming).kind = b.kind :=
  congrArg Place.kind (b.place_rename naming)

@[simp] theorem writable_rename (b : Binding) : (b.rename naming).writable = b.writable := by
  unfold rename
  split <;> rfl

/-- With no new names, nothing is named otherwise. -/
@[simp] theorem rename_none (b : Binding) : b.rename (fun _ => none) = b := by
  unfold rename
  split <;> rfl

end Binding

@[simp] theorem Callee.rename_none (callee : Callee) : callee.rename (fun _ => none) = callee := by
  cases callee with
  | generic name native overload writeback =>
      have same : Option.map (Binding.rename fun _ => none) = id := by
        funext b
        cases b <;> simp
      rw [rename, same, List.map_id]
  | scalar | vararg | composed => rfl

namespace Target

variable {α : Type} (target : Target α)

@[simp] theorem binding_rename :
    (target.rename naming).binding = target.binding.rename naming := by
  cases target <;> rfl

@[simp] theorem kind_rename : (target.rename naming).kind = target.kind := by
  cases target <;> simp [rename, kind]

end Target

namespace Tree

theorem renameOption_eq (t : Option Tree) : renameOption naming t = t.map (rename naming) := by
  cases t <;> rfl

theorem renameList_eq (ts : List Tree) : renameList naming ts = ts.map (rename naming) := by
  induction ts with
  | nil => rfl
  | cons t ts ih => rw [renameList, ih, List.map_cons]

theorem renameCases_eq (cases : List (Tree × Tree)) :
    renameCases naming cases = cases.map (Prod.map (rename naming) (rename naming)) := by
  induction cases with
  | nil => rfl
  | cons c cases ih => rw [renameCases, ih, List.map_cons, Prod.map]

@[simp] theorem binding_renameTarget (target : Target Tree) :
    (renameTarget naming target).binding = target.binding.rename naming := by
  cases target <;> rfl

@[simp] theorem kind_renameTarget (target : Target Tree) :
    (renameTarget naming target).kind = target.kind := by
  cases target <;> simp [renameTarget, Target.kind]

/-! ### No new names -/

mutual

/-- With no new names, nothing is named otherwise. -/
theorem rename_none : (t : Tree) → t.rename (fun _ => none) = t
  | .load b => by simp
  | .element b index => by simp [rename_none index]
  | .slice b first last => by simp [renameOption_none first, renameOption_none last]
  | .size b => by simp
  | .apply op args => by simp [renameList_none args]
  | .logic op left right => by simp [rename_none left, rename_none right]
  | .call callee args => by simp [renameList_none args]
  | .branch test yes no => by
      simp [rename_none test, rename_none yes, renameOption_none no]
  | .switch cases default => by simp [renameCases_none cases, renameOption_none default]
  | .whileLoop test body => by simp [rename_none test, rename_none body]
  | .forLoop first test step body => by
      simp [renameOption_none first, renameOption_none test, renameOption_none step,
        rename_none body]
  | .repeatLoop body stop => by simp [rename_none body, rename_none stop]
  | .breakLoop payload => by simp [renameOption_none payload]
  | .returnList items => by simp [renameList_none items]
  | .sequence items => by simp [renameList_none items]
  | .declare slot shape parts => by simp [renameList_none parts]
  | .assign target op value => by simp [renameTarget_none target, rename_none value]
  | .swap left right => by simp [renameTarget_none left, renameTarget_none right]
  | .null => rfl
  | .number x => rfl
  | .text s => rfl
  | .continueLoop => rfl

theorem renameOption_none : (t : Option Tree) → renameOption (fun _ => none) t = t
  | none => rfl
  | some t => congrArg some (rename_none t)

theorem renameList_none : (ts : List Tree) → renameList (fun _ => none) ts = ts
  | [] => rfl
  | t :: ts => by rw [renameList, rename_none t, renameList_none ts]

theorem renameCases_none :
    (cases : List (Tree × Tree)) → renameCases (fun _ => none) cases = cases
  | [] => rfl
  | (test, body) :: cases => by
      rw [renameCases, rename_none test, rename_none body, renameCases_none cases]

theorem renameTarget_none :
    (target : Target Tree) → renameTarget (fun _ => none) target = target
  | .whole b => by simp [renameTarget]
  | .element b index => by simp [renameTarget, rename_none index]
  | .range b first last => by
      simp [renameTarget, renameOption_none first, renameOption_none last]

end

/-! ### Folding -/

/-- What a node stands for without evaluation is not a matter of names. -/
@[simp] theorem number_rename (t : Tree) : (t.rename naming).number? = t.number? := by
  cases t with
  | load b =>
      obtain ⟨name, place, writable⟩ := b
      cases place <;> rfl
  | _ => rfl

theorem literals_rename (ts : List Tree) : literals? (renameList naming ts) = literals? ts := by
  induction ts with
  | nil => rfl
  | cons t ts ih => rw [renameList, literals?, literals?, number_rename, ih]

theorem foldApply_rename (op : Operation) (args : List Tree) :
    foldApply op (renameList naming args) = (foldApply op args).rename naming := by
  unfold foldApply
  rw [literals_rename]
  split <;> rfl

theorem foldLogic_rename (op : Connective) (left right : Tree) :
    foldLogic op (left.rename naming) (right.rename naming) =
      (foldLogic op left right).rename naming := by
  unfold foldLogic
  rw [number_rename, number_rename]
  split <;> rfl

theorem foldBranch_rename (test yes : Tree) (no : Option Tree) :
    foldBranch (test.rename naming) (yes.rename naming) (renameOption naming no) =
      (foldBranch test yes no).rename naming := by
  unfold foldBranch
  rw [number_rename]
  split
  · split
    · rfl
    · cases no <;> rfl
  · rfl

mutual

/-- Folding and naming otherwise can be done in either order. -/
theorem fold_rename : (t : Tree) → (t.rename naming).fold = t.fold.rename naming
  | .load ⟨name, place, writable⟩ => by cases place <;> rfl
  | .element b index => by simp [fold_rename index]
  | .slice b first last => by simp [foldOption_rename first, foldOption_rename last]
  | .size b => by simp
  | .apply op args => by simp [foldList_rename args, foldApply_rename]
  | .logic op left right => by simp [fold_rename left, fold_rename right, foldLogic_rename]
  | .call callee args => by simp [foldList_rename args]
  | .branch test yes no => by
      simp [fold_rename test, fold_rename yes, foldOption_rename no, foldBranch_rename]
  | .switch cases default => by simp [foldCases_rename cases, foldOption_rename default]
  | .whileLoop test body => by simp [fold_rename test, fold_rename body]
  | .forLoop first test step body => by
      simp [foldOption_rename first, foldOption_rename test, foldOption_rename step,
        fold_rename body]
  | .repeatLoop body stop => by simp [fold_rename body, fold_rename stop]
  | .breakLoop payload => by simp [foldOption_rename payload]
  | .returnList items => by simp [foldList_rename items]
  | .sequence items => by simp [foldList_rename items]
  | .declare slot shape parts => by simp [foldList_rename parts]
  | .assign target op value => by simp [foldTarget_rename target, fold_rename value]
  | .swap left right => by simp [foldTarget_rename left, foldTarget_rename right]
  | .null => rfl
  | .number x => rfl
  | .text s => rfl
  | .continueLoop => rfl

theorem foldOption_rename :
    (t : Option Tree) → foldOption (renameOption naming t) = renameOption naming (foldOption t)
  | none => rfl
  | some t => congrArg some (fold_rename t)

theorem foldList_rename :
    (ts : List Tree) → foldList (renameList naming ts) = renameList naming (foldList ts)
  | [] => rfl
  | t :: ts => by simp only [renameList, foldList, fold_rename t, foldList_rename ts]

theorem foldCases_rename : (cases : List (Tree × Tree)) →
    foldCases (renameCases naming cases) = renameCases naming (foldCases cases)
  | [] => rfl
  | (test, body) :: cases => by
      simp only [renameCases, foldCases, fold_rename test, fold_rename body,
        foldCases_rename cases]

theorem foldTarget_rename : (target : Target Tree) →
    foldTarget (renameTarget naming target) = renameTarget naming (foldTarget target)
  | .whole b => rfl
  | .element b index => by simp [renameTarget, fold_rename index]
  | .range b first last => by
      simp [renameTarget, foldOption_rename first, foldOption_rename last]

end

end Tree

theorem Program.fold_rename (p : Program) : (p.rename naming).fold = p.fold.rename naming := by
  rw [Program.fold, Program.fold, Program.rename, Program.rename, Tree.fold_rename]

end MathScript
