import MathScript.Fault
import MathScript.Value

/-!
Functions a host makes callable. A native function may keep a natural number from one call to
the next; it is handed the number it kept and hands back the next one.
-/

namespace MathScript

/-- An argument of a generic function. -/
inductive Param where
  | scalar (x : Float)
  | vector (xs : Array Float)
  | string (s : String)
  deriving DecidableEq

namespace Param

def kind : Param → Kind
  | .scalar _ => .scalar
  | .vector _ => .vector
  | .string _ => .string

def ofValue : Value → Param
  | .vector xs => .vector xs
  | .string s => .string s
  | other => .scalar other.asScalar

end Param

/-- The answer of a generic function. The parameters, as it leaves them, are written back to
arguments that are plain variables. -/
structure Reply where
  result : Except Fault Float
  params : List Param
  memory : Nat

inductive Native where
  | scalar (arity : Nat) (run : Nat → List Float → Float × Nat)
  | vararg (run : Nat → List Float → Float × Nat)
  /-- The function is told which alternative of its signature the arguments chose. -/
  | generic (signature : String) (run : Nat → Nat → List Param → Reply)

/-- A named bundle of native functions that are registered together. -/
structure Package where
  name : String
  functions : List (String × Native)

end MathScript
