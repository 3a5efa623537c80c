/-!
Kinds and values. Every node of a program has a kind fixed when it is compiled; a value is
what evaluation yields, with `null` for a construct that produced nothing.
-/

namespace MathScript

inductive Kind where
  | scalar
  | vector
  | string
  deriving DecidableEq

def Kind.name : Kind → String
  | .scalar => "scalar"
  | .vector => "vector"
  | .string => "string"

/-- Truth of a number: neither zero nor NaN. -/
def isTrue (x : Float) : Bool := x != 0 && !x.isNaN

def ofBool (b : Bool) : Float := if b then 1 else 0

def notNumber : Float := 0 / 0

inductive Value where
  | null
  | scalar (x : Float)
  | vector (xs : Array Float)
  | string (s : String)
  deriving DecidableEq

namespace Value

def kind? : Value → Option Kind
  | .null => none
  | .scalar _ => some .scalar
  | .vector _ => some .vector
  | .string _ => some .string

/-- Null and strings read as NaN, a vector as its first element. -/
def asScalar : Value → Float
  | .scalar x => x
  | .vector xs => xs.getD 0 notNumber
  | .null | .string _ => notNumber

/-- Everything but a vector reads as a vector of one element. -/
def asVector : Value → Array Float
  | .vector xs => xs
  | other => #[other.asScalar]

/-- Everything but a string reads as the empty string. -/
def asString : Value → String
  | .string s => s
  | _ => ""

def isTrue (v : Value) : Bool := MathScript.isTrue v.asScalar

end Value

end MathScript
