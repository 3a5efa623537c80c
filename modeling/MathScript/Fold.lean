import MathScript.Tree

/-!
Constant folding. Operations on number literals are carried out, a choice with a literal
condition is made, and a name of a constant becomes its value; everything else is kept and
folded inside.
-/

namespace MathScript

namespace Tree

/-- The numbers of nodes that are all literals. -/
def literals? : List Tree → Option (List Float)
  | [] => some []
  | t :: ts =>
      match t.number?, literals? ts with
      | some x, some xs => some (x :: xs)
      | _, _ => none

def foldApply (op : Operation) (args : List Tree) : Tree :=
  match op.isNumeric, literals? args with
  | true, some xs => .number (op.result (xs.map .scalar)).asScalar
  | _, _ => .apply op args

def foldLogic (op : Connective) (left right : Tree) : Tree :=
  match left.number?, right.number? with
  | some x, some y => .number (op.op.apply x y)
  | _, _ => .logic op left right

def foldBranch (test yes : Tree) (no : Option Tree) : Tree :=
  match test.number? with
  | some x => if isTrue x then yes else no.getD .null
  | none => .branch test yes no

mutual

def fold : Tree → Tree
  | .load b =>
      match b.place with
      | .constant x => .number x
      | _ => .load b
  | .element b index => .element b index.fold
  | .slice b first last => .slice b (foldOption first) (foldOption last)
  | .apply op args => foldApply op (foldList args)
  | .logic op left right => foldLogic op left.fold right.fold
  | .call callee args => .call callee (foldList args)
  | .branch test yes no => foldBranch test.fold yes.fold (foldOption no)
  | .switch cases default => .switch (foldCases cases) (foldOption default)
  | .whileLoop test body => .whileLoop test.fold body.fold
  | .forLoop first test step body =>
      .forLoop (foldOption first) (foldOption test) (foldOption step) body.fold
  | .repeatLoop body stop => .repeatLoop body.fold stop.fold
  | .breakLoop payload => .breakLoop (foldOption payload)
  | .returnList items => .returnList (foldList items)
  | .sequence items => .sequence (foldList items)
  | .declare slot shape parts => .declare slot shape (foldList parts)
  | .assign target op value => .assign (foldTarget target) op value.fold
  | .swap left right => .swap (foldTarget left) (foldTarget right)
  | .null => .null
  | .number x => .number x
  | .text s => .text s
  | .size b => .size b
  | .continueLoop => .continueLoop

def foldOption : Option Tree → Option Tree
  | none => none
  | some t => some t.fold

def foldList : List Tree → List Tree
  | [] => []
  | t :: ts => t.fold :: foldList ts

def foldCases : List (Tree × Tree) → List (Tree × Tree)
  | [] => []
  | (test, body) :: cases => (test.fold, body.fold) :: foldCases cases

def foldTarget : Target Tree → Target Tree
  | .whole b => .whole b
  | .element b index => .element b index.fold
  | .range b first last => .range b (foldOption first) (foldOption last)

end

attribute [simp] fold foldOption foldList foldCases foldTarget

end Tree

def Program.fold (p : Program) : Program := { p with tree := p.tree.fold }

end MathScript
