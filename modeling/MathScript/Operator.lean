import MathScript.Binary64
import MathScript.Value

/-!
Binary operators, their grouping, and their meaning on two numbers. Precedence 7 is left to
the unary operators, which bind tighter than everything but the power.
-/

namespace MathScript

inductive Op where
  | or | nor | and | nand | xor | xnor
  | eq | ne | lt | le | gt | ge | member | like | ilike
  | plus | minus | times | divide | modulo | power
  deriving DecidableEq

namespace Op

def all : List Op :=
  [.or, .nor, .and, .nand, .xor, .xnor, .eq, .ne, .lt, .le, .gt, .ge, .member, .like, .ilike,
    .plus, .minus, .times, .divide, .modulo, .power]

def symbol : Op → String
  | .or => "or"
  | .nor => "nor"
  | .and => "and"
  | .nand => "nand"
  | .xor => "xor"
  | .xnor => "xnor"
  | .eq => "=="
  | .ne => "!="
  | .lt => "<"
  | .le => "<="
  | .gt => ">"
  | .ge => ">="
  | .member => "in"
  | .like => "like"
  | .ilike => "ilike"
  | .plus => "+"
  | .minus => "-"
  | .times => "*"
  | .divide => "/"
  | .modulo => "%"
  | .power => "^"

def ofSymbol? (s : String) : Option Op := all.find? fun op => op.symbol == s

/-- Operators of higher precedence are applied first. -/
def precedence : Op → Nat
  | .or | .nor => 1
  | .and | .nand => 2
  | .xor | .xnor => 3
  | .eq | .ne | .lt | .le | .gt | .ge | .member | .like | .ilike => 4
  | .plus | .minus => 5
  | .times | .divide | .modulo => 6
  | .power => 8

def isLeftAssociative (op : Op) : Bool := op != .power

def isRightAssociative (op : Op) : Bool := !op.isLeftAssociative

def isComparison (op : Op) : Bool := op.precedence == 4

def isLogical (op : Op) : Bool := op.precedence ≤ 3

def isArithmetic (op : Op) : Bool := 5 ≤ op.precedence

/-- The least precedence an operand to the right of `op` may have without parentheses. -/
def rightPrecedence (op : Op) : Nat :=
  if op.isLeftAssociative then op.precedence + 1 else op.precedence

/-- The operators on strings alone have no meaning on numbers. -/
def apply (op : Op) (left right : Float) : Float :=
  match op with
  | .or => ofBool (isTrue left || isTrue right)
  | .nor => ofBool !(isTrue left || isTrue right)
  | .and => ofBool (isTrue left && isTrue right)
  | .nand => ofBool !(isTrue left && isTrue right)
  | .xor => ofBool (isTrue left != isTrue right)
  | .xnor => ofBool (isTrue left == isTrue right)
  | .eq => ofBool (left == right)
  | .ne => ofBool (left != right)
  | .lt => ofBool (left < right)
  | .le => ofBool (left ≤ right)
  | .gt => ofBool (left > right)
  | .ge => ofBool (left ≥ right)
  | .member | .like | .ilike => notNumber
  | .plus => left + right
  | .minus => left - right
  | .times => left * right
  | .divide => left / right
  | .modulo => remainder left right
  | .power => left.pow right

end Op

inductive AssignOp where
  | set | add | sub | mul | div | mod
  deriving DecidableEq

namespace AssignOp

/-- The operator a compound assignment applies before it stores. -/
def operator? : AssignOp → Option Op
  | .set => none
  | .add => some .plus
  | .sub => some .minus
  | .mul => some .times
  | .div => some .divide
  | .mod => some .modulo

def symbol : AssignOp → String
  | .set => ":="
  | .add => "+="
  | .sub => "-="
  | .mul => "*="
  | .div => "/="
  | .mod => "%="

/-- The number stored over `current`. -/
def combine (op : AssignOp) (current value : Float) : Float :=
  match op.operator? with
  | some op => op.apply current value
  | none => value

end AssignOp

/-- The two connectives that leave their right side alone when the left one decides. -/
inductive Connective where
  | and
  | or
  deriving DecidableEq

def Connective.op : Connective → Op
  | .and => .and
  | .or => .or

end MathScript
