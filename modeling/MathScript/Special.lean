/-!
Functions of real numbers that have no primitive: the error function, logarithm and
exponential near their fixed points, the inverse hyperbolic functions and integer powers.
All are accurate to a few units in the last place.
-/

namespace MathScript.Special

/-- The polynomial with these coefficients, the constant first. -/
def polynomial (coefficients : List Float) (x : Float) : Float :=
  coefficients.foldr (fun c rest => c + x * rest) 0

/-! ### The error function

Rational approximations on five ranges of the argument. -/

def erx : Float := 8.45062911510467529297e-01

def efx : Float := 1.28379167095512586316e-01

/-- On `|x| < 0.84375`, `erf x = x + x * center x`. -/
def center (x : Float) : Float :=
  let z := x * x
  polynomial [1.28379167095512558561e-01, -3.25042107247001499370e-01,
      -2.84817495755985104766e-02, -5.77027029648944159157e-03, -2.37630166566501626084e-05] z /
    polynomial [1, 3.97917223959155352819e-01, 6.50222499887672944485e-02,
      5.08130628187576562776e-03, 1.32494738004321644526e-04, -3.96022827877536812320e-06] z

/-- On `0.84375 ≤ x < 1.25`, the complement `1 - erf x`. -/
def shoulder (x : Float) : Float :=
  let s := x - 1
  1 - erx -
    polynomial [-2.36211856075265944077e-03, 4.14856118683748331666e-01,
        -3.72207876035701323847e-01, 3.18346619901161753674e-01, -1.10894694282396677476e-01,
        3.54783043256182359371e-02, -2.16637559486879084300e-03] s /
      polynomial [1, 1.06420880400844228286e-01, 5.40397917702171048937e-01,
        7.18286544141962662868e-02, 1.26171219808761642112e-01, 1.36370839120290507362e-02,
        1.19844998467991074170e-02] s

/-- `x` with the lower half of its bits cleared. -/
def coarse (x : Float) : Float := Float.ofBits (x.toBits >>> 32 <<< 32)

/-- From `1.25` on, the complement by an asymptotic series with its exponential factored so
that the square is exact. -/
def tail (x : Float) : Float :=
  let s := 1 / (x * x)
  let series :=
    if x < 1 / 0.35 then
      polynomial [-9.86494403484714822705e-03, -6.93858572707181764372e-01,
          -1.05586262253232909814e+01, -6.23753324503260060396e+01,
          -1.62396669462573470355e+02, -1.84605092906711035994e+02,
          -8.12874355063065934246e+01, -9.81432934416914548592e+00] s /
        polynomial [1, 1.96512716674392571292e+01, 1.37657754143519042600e+02,
          4.34565877475229228821e+02, 6.45387271733267880336e+02,
          4.29008140027567833386e+02, 1.08635005541779435134e+02,
          6.57024977031928170135e+00, -6.04244152148580987438e-02] s
    else
      polynomial [-9.86494292470009928597e-03, -7.99283237680523006574e-01,
          -1.77579549177547519889e+01, -1.60636384855821916062e+02,
          -6.37566443368389627722e+02, -1.02509513161107724954e+03,
          -4.83519191608651397019e+02] s /
        polynomial [1, 3.03380607434824582924e+01, 3.25792512996573918826e+02,
          1.53672958608443695994e+03, 3.19985821950859553908e+03,
          2.55305040643316442583e+03, 4.74528541206955367215e+02,
          -2.24409524465858183362e+01] s
  let z := coarse x
  (-z * z - 0.5625).exp * ((z - x) * (z + x) + series).exp / x

/-- The complement of `erf` at a magnitude from `0.84375` on. -/
def complement (x : Float) : Float := if x < 1.25 then shoulder x else tail x

def erf (x : Float) : Float :=
  let a := x.abs
  if x.isNaN then x
  else if a < 0.84375 then
    if a < 3.7252902984619140625e-9 then x + efx * x else x + x * center x
  else
    let y := if a < 6 then 1 - complement a else 1
    if x < 0 then -y else y

def erfc (x : Float) : Float :=
  let a := x.abs
  if x.isNaN then x
  else if a < 0.84375 then
    if x < 0.25 then 1 - (x + x * center x) else 0.5 - (x - 0.5 + x * center x)
  else if a < 28 then
    if x < 0 then 2 - complement a else complement a
  else if x < 0 then 2 else 0

/-! ### Logarithm and exponential -/

/-- The logarithm of `1 + x`; the quotient undoes the rounding of the sum. -/
def logOnePlus (x : Float) : Float :=
  let u := 1 + x
  if u == 1 then x
  else if u.isInf then u.log
  else u.log * (x / (u - 1))

/-- The exponential of `x` less one, by the same device. -/
def expLessOne (x : Float) : Float :=
  let u := x.exp
  if u == 1 then x
  else if u.isInf then u
  else if u - 1 == -1 then -1
  else (u - 1) * (x / u.log)

def hypotenuse (x y : Float) : Float :=
  if x.isInf || y.isInf then 1 / 0
  else
    let large := if x.abs < y.abs then y.abs else x.abs
    if large < 1e-150 then
      let a := x.scaleB 600
      let b := y.scaleB 600
      (a * a + b * b).sqrt.scaleB (-600)
    else if 1e150 < large then
      let a := x.scaleB (-600)
      let b := y.scaleB (-600)
      (a * a + b * b).sqrt.scaleB 600
    else (x * x + y * y).sqrt

def withSign (magnitude sign : Float) : Float :=
  if sign < 0 || 1 / sign < 0 then -magnitude else magnitude

def asinh (x : Float) : Float :=
  let a := x.abs
  let i := 1 / a
  if x.isNaN then x
  else withSign (logOnePlus (a + a / (hypotenuse 1 i + i))) x

def acosh (x : Float) : Float :=
  if x < 1 then 0 / 0 else (x + (x - 1).sqrt * (x + 1).sqrt).log

def atanh (x : Float) : Float := 0.5 * logOnePlus (2 * x / (1 - x))

/-- The power with a natural exponent by repeated squaring. -/
def squarings : Nat → Float → Nat → Float → Float
  | 0, _, _, result => result
  | fuel + 1, base, exponent, result =>
      let result := if exponent % 2 = 1 then result * base else result
      if exponent / 2 = 0 then result
      else squarings fuel (base * base) (exponent / 2) result

/-- The power with an integer exponent; a negative one inverts the power of its magnitude. -/
def powi (base : Float) (exponent : Int) : Float :=
  let power := squarings (exponent.natAbs.log2 + 1) base exponent.natAbs 1
  if exponent < 0 then 1 / power else power

end MathScript.Special
