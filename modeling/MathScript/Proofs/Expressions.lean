import MathScript.Parse.Expression
import MathScript.Proofs.Nodes

/-!
Operators and targets read nodes, given that operands do.
-/

namespace MathScript.Parse

open Tree

variable {offers : Grant → Prop} {scopes : List Scope} {input : List Tree} (source : Source)
  {operand : Parse Typed}

theorem quiet_operatorAhead (least : Nat) : Quiet (operatorAhead source least) :=
  (quiet_peek source).bind fun found => by
    split <;> exact quiet_pure _

/-- Two nodes read one after the other are put together. -/
theorem yields_pair {left right : Typed} {x : Parse Typed}
    (gives : Gives x fun n => Right n ∧ Made offers scopes [left.tree, right.tree] n.tree) :
    Yields offers scopes ((input ++ [left.tree]) ++ [right.tree]) x
      (fun n => input ++ [n.tree]) Right := by
  have node : Yields offers scopes (input ++ [left.tree, right.tree]) x (fun n => input ++ [n.tree])
      Right := yields_node gives
  rwa [show input ++ [left.tree, right.tree] = (input ++ [left.tree]) ++ [right.tree] by simp]
    at node

/-- Operators to the right of a node go together with it. -/
def Climbs (offers : Grant → Prop) (x : Typed → Parse Typed) : Prop :=
  ∀ left, Right left → ∀ scopes input,
    Yields offers scopes (input ++ [left.tree]) (x left) (fun n => input ++ [n.tree]) Right

theorem reads_binary (operands : Reads offers operand) (fuel : Nat) :
    (∀ least, Reads offers (binary source operand fuel least)) ∧
      ∀ least, Climbs offers (climb source operand fuel least) := by
  -- The two call each other, each with less to go, so they are proved together.
  induction fuel with
  | zero =>
      constructor
      · intro least scopes input
        rw [binary]
        exact yields_throw
      · intro least left right scopes input
        rw [climb]
        exact yields_throw
  | succ fuel ih =>
      obtain ⟨binaries, climbs⟩ := ih
      constructor
      · intro least scopes input
        rw [binary]
        exact (operands scopes input).bind fun left right => climbs least left right scopes input
      · intro least left right scopes input
        rw [climb]
        apply (quiet_operatorAhead source least).before
        intro found
        cases found with
        | none => exact yields_pure right fun _ _ at_ => at_
        | some op =>
            refine (quiet_position source).before fun here =>
              (quiet_advance source).before fun _ => ?_
            apply (binaries op.rightPrecedence scopes _).bind
            intro other otherRight
            have combined : Yields offers scopes ((input ++ [left.tree]) ++ [other.tree])
                (combine source op left other here) (fun n => input ++ [n.tree]) Right :=
              yields_pair (gives_combine source op left other here)
            exact combined.bind fun n nRight => climbs least n nRight scopes input

theorem reads_chain (operands : Reads offers operand) (least : Nat) :
    Reads offers (chain source operand least) :=
  (reads_binary source operands source.allowance).1 least

/-- A condition with the nodes for both of its outcomes. -/
theorem yields_choice {condition yes no : Typed} {position : Nat} (yesRight : Right yes)
    (noRight : Right no) :
    Yields offers scopes (((input ++ [condition.tree]) ++ [yes.tree]) ++ [no.tree])
      (conditional source condition.tree yes (some no) position)
      (fun n => input ++ [n.tree]) Right := by
  have node : Yields offers scopes (input ++ [condition.tree, yes.tree, no.tree])
      (conditional source condition.tree yes (some no) position) (fun n => input ++ [n.tree])
      Right :=
    yields_node (gives_conditional source condition.tree yes (some no) position yesRight
      (by simpa using noRight))
  simpa using node

theorem reads_ternary (operands : Reads offers operand) {again : Parse Typed}
    (agains : Reads offers again) : Reads offers (ternary source operand again) := by
  intro scopes input
  apply (quiet_position source).before
  intro here
  apply (reads_chain source operands 1 scopes input).bind
  intro condition right
  apply (quiet_eat source .question).before
  intro asked
  refine yields_ite ?_ (yields_pure right fun _ _ at_ => at_)
  apply (gives_requireScalar source condition here "condition").yields.bind
  intro test test_eq
  subst test_eq
  apply (agains scopes _).bind
  intro yes yesRight
  apply (quiet_expect source .colon _).before
  intro _
  apply (agains scopes _).bind
  intro no noRight
  exact yields_choice source yesRight noRight

theorem reads_expressions (operands : Reads offers operand) (fuel : Nat) :
    Reads offers (expressions source operand fuel) := by
  -- What stands to the right of an assignment is an expression again.
  induction fuel with
  | zero =>
      intro scopes input
      exact yields_throw
  | succ fuel ih =>
      intro scopes input
      rw [expressions]
      apply (quiet_position source).before
      intro here
      apply (reads_ternary source operands ih scopes input).bind
      intro left right
      apply (quiet_peek source).before
      intro found
      split
      · next op =>
          apply (quiet_advance source).before
          intro _
          apply (ih scopes _).bind
          intro value _
          exact yields_pair (gives_assignment source left op value here)
      · apply (quiet_advance source).before
        intro _
        apply (reads_ternary source operands ih scopes _).bind
        intro other _
        exact yields_pair (gives_exchange source left other here)
      · exact yields_pure right fun _ _ at_ => at_

theorem reads_expression (operands : Reads offers operand) :
    Reads offers (expression source operand) :=
  reads_expressions source operands source.allowance

end MathScript.Parse
