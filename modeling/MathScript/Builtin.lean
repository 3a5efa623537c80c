import MathScript.Binary64
import MathScript.Special
import MathScript.Value

/-!
The functions every program may call without a declaration: functions of one, two and three
numbers, and the reductions of a list of numbers.
-/

namespace MathScript

/-- Functions of one number; on a vector they act element by element. -/
inductive Unary where
  | abs | acos | acosh | asin | asinh | atan | atanh | cbrt | ceil | cos | cosh | cot | csc | sec
  | deg2rad | rad2deg | erf | erfc | exp | expm1 | floor | frac | ln | log | log10 | log1p | log2
  | ncdf | round | sgn | sin | sinc | sinh | sqrt | tan | tanh | trunc
  deriving DecidableEq

namespace Unary

def all : List Unary :=
  [.abs, .acos, .acosh, .asin, .asinh, .atan, .atanh, .cbrt, .ceil, .cos, .cosh, .cot, .csc,
    .sec, .deg2rad, .rad2deg, .erf, .erfc, .exp, .expm1, .floor, .frac, .ln, .log, .log10,
    .log1p, .log2, .ncdf, .round, .sgn, .sin, .sinc, .sinh, .sqrt, .tan, .tanh, .trunc]

def name : Unary → String
  | .abs => "abs"
  | .acos => "acos"
  | .acosh => "acosh"
  | .asin => "asin"
  | .asinh => "asinh"
  | .atan => "atan"
  | .atanh => "atanh"
  | .cbrt => "cbrt"
  | .ceil => "ceil"
  | .cos => "cos"
  | .cosh => "cosh"
  | .cot => "cot"
  | .csc => "csc"
  | .sec => "sec"
  | .deg2rad => "deg2rad"
  | .rad2deg => "rad2deg"
  | .erf => "erf"
  | .erfc => "erfc"
  | .exp => "exp"
  | .expm1 => "expm1"
  | .floor => "floor"
  | .frac => "frac"
  | .ln => "ln"
  | .log => "log"
  | .log10 => "log10"
  | .log1p => "log1p"
  | .log2 => "log2"
  | .ncdf => "ncdf"
  | .round => "round"
  | .sgn => "sgn"
  | .sin => "sin"
  | .sinc => "sinc"
  | .sinh => "sinh"
  | .sqrt => "sqrt"
  | .tan => "tan"
  | .tanh => "tanh"
  | .trunc => "trunc"

def ofName? (s : String) : Option Unary := all.find? fun f => f.name == s

def pi : Float := 3.14159265358979323846

def sign (x : Float) : Float := if x > 0 then 1 else if x < 0 then -1 else 0

/-- The distribution function of the standard normal law. -/
def normal (x : Float) : Float := 0.5 * Special.erfc (-x / 1.41421356237309504880)

def apply (f : Unary) (x : Float) : Float :=
  match f with
  | .abs => x.abs
  | .acos => x.acos
  | .acosh => Special.acosh x
  | .asin => x.asin
  | .asinh => Special.asinh x
  | .atan => x.atan
  | .atanh => Special.atanh x
  | .cbrt => x.cbrt
  | .ceil => x.ceil
  | .cos => x.cos
  | .cosh => x.cosh
  | .cot => 1 / x.tan
  | .csc => 1 / x.sin
  | .sec => 1 / x.cos
  | .deg2rad => x * (pi / 180)
  | .rad2deg => x * (180 / pi)
  | .erf => Special.erf x
  | .erfc => Special.erfc x
  | .exp => x.exp
  | .expm1 => Special.expLessOne x
  | .floor => x.floor
  | .frac => x - truncate x
  | .ln | .log => x.log
  | .log10 => x.log10
  | .log1p => Special.logOnePlus x
  | .log2 => x.log2
  | .ncdf => normal x
  | .round => x.round
  | .sgn => sign x
  | .sin => x.sin
  | .sinc => if x == 0 then 1 else x.sin / x
  | .sinh => x.sinh
  | .sqrt => x.sqrt
  | .tan => x.tan
  | .tanh => x.tanh
  | .trunc => truncate x

end Unary

inductive Binary where
  | atan2 | hypot | logn | pow | root | roundn | equal | notEqual
  deriving DecidableEq

namespace Binary

def all : List Binary := [.atan2, .hypot, .logn, .pow, .root, .roundn, .equal, .notEqual]

def name : Binary → String
  | .atan2 => "atan2"
  | .hypot => "hypot"
  | .logn => "logn"
  | .pow => "pow"
  | .root => "root"
  | .roundn => "roundn"
  | .equal => "equal"
  | .notEqual => "not_equal"

def ofName? (s : String) : Option Binary := all.find? fun f => f.name == s

/-- The number of places, held within 32 signed bits; NaN asks for none. -/
def places (x : Float) : Int :=
  match truncated? x with
  | some i => max (-Int.pow 2 31) (min (Int.pow 2 31 - 1) i)
  | none => if x > 0 then Int.pow 2 31 - 1 else if x < 0 then -Int.pow 2 31 else 0

def roundTo (x digits : Float) : Float :=
  let scale := Special.powi 10 (places digits)
  (x * scale).round / scale

/-- The larger number; a NaN gives way. -/
def larger (a b : Float) : Float :=
  if a.isNaN then b else if b.isNaN then a else if a < b then b else a

/-- The smaller number; a NaN gives way. -/
def smaller (a b : Float) : Float :=
  if a.isNaN then b else if b.isNaN then a else if b < a then b else a

/-- Equality up to a relative error of `1e-10`, absolute for numbers below one. -/
def close (a b : Float) : Bool :=
  (a - b).abs ≤ 1e-10 * larger (larger 1 a.abs) b.abs

def apply (f : Binary) (a b : Float) : Float :=
  match f with
  | .atan2 => a.atan2 b
  | .hypot => Special.hypotenuse a b
  | .logn => a.log / b.log
  | .pow => a.pow b
  | .root => a.pow (1 / b)
  | .roundn => roundTo a b
  | .equal => ofBool (close a b)
  | .notEqual => ofBool !(close a b)

end Binary

inductive Ternary where
  | clamp | inrange
  deriving DecidableEq

namespace Ternary

def all : List Ternary := [.clamp, .inrange]

def name : Ternary → String
  | .clamp => "clamp"
  | .inrange => "inrange"

def ofName? (s : String) : Option Ternary := all.find? fun f => f.name == s

/-- The middle argument is the number the outer two bound. -/
def apply (f : Ternary) (low x high : Float) : Float :=
  match f with
  | .clamp => if x < low then low else if x > high then high else x
  | .inrange => ofBool (low ≤ x && x ≤ high)

end Ternary

/-- Reductions of a whole vector, or of one or more numbers. -/
inductive Reduction where
  | sum | avg | min | max | mul
  deriving DecidableEq

namespace Reduction

def all : List Reduction := [.sum, .avg, .min, .max, .mul]

def name : Reduction → String
  | .sum => "sum"
  | .avg => "avg"
  | .min => "min"
  | .max => "max"
  | .mul => "mul"

def ofName? (s : String) : Option Reduction := all.find? fun r => r.name == s

/-- Summation starts from minus zero, the neutral element of addition. -/
def total (xs : List Float) : Float := xs.foldl (· + ·) (-0)

def best (pick : Float → Float → Float) : List Float → Float
  | [] => notNumber
  | x :: xs => xs.foldl pick x

def apply (r : Reduction) (xs : List Float) : Float :=
  match r with
  | .sum => total xs
  | .avg => if xs.isEmpty then notNumber else total xs / xs.length.toFloat
  | .min => best Binary.smaller xs
  | .max => best Binary.larger xs
  | .mul => xs.foldl (· * ·) 1

end Reduction

def isBuiltin (name : String) : Bool :=
  (Unary.ofName? name).isSome || (Binary.ofName? name).isSome ||
    (Ternary.ofName? name).isSome || (Reduction.ofName? name).isSome

end MathScript
