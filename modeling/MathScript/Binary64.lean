/-!
The exact reading of a double: its sign, and a natural significand times a power of two.
Truncation, element indices and remainders are computed on that reading in integers, so
nothing here depends on the rounding of a library function.
-/

namespace MathScript

inductive Binary64 where
  | nan
  | infinite (negative : Bool)
  | finite (negative : Bool) (significand : Nat) (exponent : Int)
  deriving DecidableEq

namespace Binary64

/-- The value is the significand times two to the exponent, negated where `negative` holds. -/
def ofFloat (x : Float) : Binary64 :=
  let bits := x.toBits.toNat
  let negative := Nat.pow 2 63 ≤ bits
  let biased : Nat := bits / Nat.pow 2 52 % Nat.pow 2 11
  let fraction := bits % Nat.pow 2 52
  if biased = 2047 then
    if fraction = 0 then .infinite negative else .nan
  else if biased = 0 then .finite negative fraction (-1074)
  else .finite negative (Nat.pow 2 52 + fraction) ((biased : Int) - 1075)

def applySign (negative : Bool) (n : Nat) : Int :=
  if negative then -(n : Int) else n

/-- The whole part of `significand * 2 ^ exponent`. -/
def whole (significand : Nat) : Int → Nat
  | .ofNat up => significand * Nat.pow 2 up
  | .negSucc down => significand / Nat.pow 2 (down + 1)

end Binary64

/-- The integer that `x` truncates to; none for an infinity or NaN. -/
def truncated? (x : Float) : Option Int :=
  match Binary64.ofFloat x with
  | .finite negative significand exponent =>
      some (Binary64.applySign negative (Binary64.whole significand exponent))
  | _ => none

namespace Index

def least : Int := -Int.pow 2 63

def greatest : Int := Int.pow 2 63 - 1

def clamp (i : Int) : Int := max least (min greatest i)

/-- The element index a number stands for: its truncation, held within 64 signed bits.
NaN stands for the least index. -/
def ofFloat (x : Float) : Int :=
  match Binary64.ofFloat x with
  | .nan => least
  | .infinite negative => if negative then least else greatest
  | .finite negative significand exponent =>
      clamp (Binary64.applySign negative (Binary64.whole significand exponent))

/-- Whether `0 ≤ x < length`, compared exactly. -/
def within (length : Nat) (x : Float) : Bool :=
  match Binary64.ofFloat x with
  | .finite negative significand exponent =>
      (!negative || significand == 0) && Binary64.whole significand exponent < length
  | _ => false

/-- The whole part of `x` held within `0` and `length`. NaN gives `0`. -/
def hold (length : Nat) (x : Float) : Nat :=
  match Binary64.ofFloat x with
  | .nan => 0
  | .infinite negative => if negative then 0 else length
  | .finite negative significand exponent =>
      if negative then 0 else min length (Binary64.whole significand exponent)

end Index

/-- `x` without its fractional part; the sign of a zero is the sign of `x`. -/
def truncate (x : Float) : Float :=
  if x < 0 then x.ceil else x.floor

/-- Whether `x` is finite and has no fractional part. -/
def isWhole (x : Float) : Bool :=
  match Binary64.ofFloat x with
  | .finite _ _ (.ofNat _) => true
  | .finite _ significand (.negSucc down) => significand % Nat.pow 2 (down + 1) == 0
  | _ => false

/-- The exact remainder of `x` by `y` with the sign of `x`. -/
def remainder (x y : Float) : Float :=
  match Binary64.ofFloat x, Binary64.ofFloat y with
  | .finite negative m e, .finite _ n f =>
      if n = 0 then 0 / 0
      else
        let base := min e f
        let rest := (m * Nat.pow 2 (e - base).toNat) % (n * Nat.pow 2 (f - base).toNat)
        let size := (UInt64.ofNat (rest / Nat.pow 2 (rest.log2 + 1 - 53))).toFloat.scaleB
          (base + (rest.log2 + 1 - 53 : Nat))
        if negative then -size else size
  | .finite .., .infinite _ => x
  | _, _ => 0 / 0

end MathScript
