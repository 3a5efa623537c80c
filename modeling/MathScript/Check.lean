import MathScript.Fault
import MathScript.Store

/-!
Accesses outside of a vector, and the checks that are told about them. Without a check such an
access is suppressed: a read gives NaN, a write is dropped. A check sees it first and may end
the evaluation instead.
-/

namespace MathScript

structure Access where
  vector : String
  index : Int
  length : Nat
  deriving DecidableEq

namespace Access

def elementSize : Nat := 8

/-- The distance in bytes from the first element to the end. -/
def extent (a : Access) : Nat := a.length * elementSize

/-- The distance in bytes from the first element to the accessed one, within 64 signed bits. -/
def offset (a : Access) : Int := (a.index * elementSize).bmod (Nat.pow 2 64)

def fault (a : Access) : Fault := .vectorAccess a.vector a.index a.length

end Access

/-- What a check decides about an access, from the number it kept and with the number it
keeps. -/
abbrev Judge := Nat → Access → Option Fault × Nat

namespace Judge

/-- Lets every access pass. -/
def log : Judge := fun kept _ => (none, kept)

/-- Ends the evaluation at the first access. -/
def abort : Judge := fun kept access => (some access.fault, kept)

/-- Lets `limit` accesses pass, counted over all evaluations. -/
def budget (limit : Nat) : Judge := fun kept _ =>
  (if limit < kept + 1 then
      some (.aborted ("violation budget of " ++ toString limit ++ " spent"))
    else none,
    kept + 1)

end Judge

structure Check where
  judge : Judge
  memory : Memory

end MathScript
