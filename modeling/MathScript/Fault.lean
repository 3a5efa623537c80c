/-!
What can go wrong outside of compilation: faults that end an evaluation, and refusals of a
symbol table.
-/

namespace MathScript

inductive Fault where
  | vectorAccess (vector : String) (index : Int) (length : Nat)
  | recursionLimit (function : String) (limit : Nat)
  | unavailable (function : String)
  | native (function text : String)
  | aborted (reason : String)
  deriving DecidableEq

def Fault.message : Fault → String
  | .vectorAccess vector index length =>
      "vector access violation on '" ++ vector ++ "': index " ++ toString index ++
        " outside [0, " ++ toString length ++ ")"
  | .recursionLimit function limit =>
      "call depth limit of " ++ toString limit ++ " exceeded in '" ++ function ++ "'"
  | .unavailable function => "function '" ++ function ++ "' is no longer available"
  | .native function text => "native function '" ++ function ++ "' failed: " ++ text
  | .aborted reason => "evaluation aborted: " ++ reason

inductive SymbolError where
  | alreadyExists (name : String)
  | immutable
  | invalidName (name : String)
  | reserved (name : String)
  | invalidSignature (function signature : String)
  | notFound (name : String)
  deriving DecidableEq

def SymbolError.message : SymbolError → String
  | .alreadyExists name => "symbol '" ++ name ++ "' already exists"
  | .immutable => "symbol table is immutable"
  | .invalidName name => "'" ++ name ++ "' is not a valid identifier"
  | .reserved name => "'" ++ name ++ "' is a reserved word or built-in function"
  | .invalidSignature function signature =>
      "invalid signature '" ++ signature ++ "' for '" ++ function ++ "'"
  | .notFound name => "symbol '" ++ name ++ "' not found"

end MathScript
