/-!
Options of a compilation. At least one diagnostic is kept and one level of nesting allowed. Of
the options a parse is handed only its limits.
-/

namespace MathScript

structure Settings where
  implicitMultiplication : Bool := true
  constantFolding : Bool := true
  maxErrors : Nat := 16
  maxCallDepth : Nat := 128
  maxNestingDepth : Nat := 256
  maxVectorSize : Nat := Nat.pow 2 20
  deriving DecidableEq

/-- How many diagnostics are kept, how deep operands nest, how long a declared vector may be. -/
structure Limits where
  errors : Nat
  nesting : Nat
  vectorSize : Nat
  deriving DecidableEq

namespace Settings

def limits (s : Settings) : Limits := ⟨s.maxErrors, s.maxNestingDepth, s.maxVectorSize⟩

def withMaxErrors (s : Settings) (count : Nat) : Settings := { s with maxErrors := max count 1 }

def withMaxNestingDepth (s : Settings) (depth : Nat) : Settings :=
  { s with maxNestingDepth := max depth 1 }

end Settings

end MathScript
