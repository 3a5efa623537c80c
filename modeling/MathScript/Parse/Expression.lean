import MathScript.Fold
import MathScript.Parse.Node

/-!
Operators and targets. Everything below the operators is an `operand`; the parts of a program
are nested in operands only, so the depth of nesting is the depth of operands.
-/

namespace MathScript.Parse

variable (source : Source) (operand : Parse Typed)

/-- The operator ahead if it binds at least as tight as `least`. -/
def operatorAhead (least : Nat) : Parse (Option Op) := do
  match ← peek source with
  | some (.sym (.op op)) => return if least ≤ op.precedence then some op else none
  | _ => return none

mutual

/-- An operand and the operators of at least precedence `least` behind it. -/
def binary : Nat → Nat → Parse Typed
  | 0, _ => stalled source
  | fuel + 1, least => do climb fuel least (← operand)

/-- Takes operators as long as they bind tight enough, with all of their right sides. -/
def climb : Nat → Nat → Typed → Parse Typed
  | 0, _, _ => stalled source
  | fuel + 1, least, left => do
      match ← operatorAhead source least with
      | none => return left
      | some op =>
          let here ← position source
          let _ ← advance source
          let right ← binary fuel op.rightPrecedence
          climb fuel least (← combine source op left right here)

end

def chain (least : Nat) : Parse Typed := binary source operand source.allowance least

/-- `again` parses the expressions to the right. -/
def ternary (again : Parse Typed) : Parse Typed := do
  let here ← position source
  let condition ← chain source operand 1
  if ← eat source .question then
    let test ← requireScalar source condition here "condition"
    let yes ← again
    expect source .colon "in conditional expression"
    let no ← again
    conditional source test yes (some no) here
  else return condition

def expressions : Nat → Parse Typed
  | 0 => stalled source
  | fuel + 1 => do
      let here ← position source
      let left ← ternary source operand (expressions fuel)
      match ← peek source with
      | some (.sym (.assign op)) =>
          let _ ← advance source
          let value ← expressions fuel
          assignment source left op value here
      | some (.sym .swap) =>
          let _ ← advance source
          let right ← ternary source operand (expressions fuel)
          exchange source left right here
      | _ => return left

/-- An expression with its assignments and swaps, to the right first. -/
def expression : Parse Typed := expressions source operand source.allowance

end MathScript.Parse
