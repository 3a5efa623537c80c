import MathScript.Binary64

/-!
Decimal texts of doubles. A positive value is written with the fewest digits that read back
to it, the digits nearest to it among those; where the point stands and when an exponent is
written is left to a `Layout`. Reading takes the double nearest to the text, ties to even.
-/

namespace MathScript

/-- The number `digits * 10 ^ exponent`. -/
structure Decimal where
  digits : Nat
  exponent : Int
  deriving DecidableEq

namespace Decimal

/-- A ratio `num / den` that is scaled by a power of ten from both sides. -/
structure Ratio where
  num : Nat
  den : Nat

namespace Ratio

def ofBinary (significand : Nat) : Int → Ratio
  | .ofNat up => ⟨significand * Nat.pow 2 up, 1⟩
  | .negSucc down => ⟨significand, Nat.pow 2 (down + 1)⟩

/-- The ratio divided by `10 ^ exponent`. -/
def inUnits (r : Ratio) : Int → Ratio
  | .ofNat up => ⟨r.num, r.den * Nat.pow 10 up⟩
  | .negSucc down => ⟨r.num * Nat.pow 10 (down + 1), r.den⟩

def floor (r : Ratio) : Nat := r.num / r.den

def le (a b : Ratio) : Bool := a.num * b.den ≤ b.num * a.den

def lt (a b : Ratio) : Bool := a.num * b.den < b.num * a.den

/-- The nearest natural number, a half going to the even neighbour. -/
def nearest (r : Ratio) : Nat :=
  let low := r.num / r.den
  let rest := 2 * (r.num % r.den)
  if rest < r.den then low
  else if r.den < rest then low + 1
  else low + low % 2

end Ratio

def dropZeros : Nat → Decimal → Decimal
  | 0, d => d
  | fuel + 1, d =>
      if d.digits ≠ 0 ∧ d.digits % 10 = 0 then
        dropZeros fuel ⟨d.digits / 10, d.exponent + 1⟩
      else d

/-- The decimal without trailing zeros among its digits. -/
def trim (d : Decimal) : Decimal := dropZeros (d.digits.log2 + 1) d

/-- Steps `exponent` down until the ratio is at least one in its units. -/
def settle (r : Ratio) : Nat → Int → Int
  | 0, exponent => exponent
  | fuel + 1, exponent =>
      if (r.inUnits exponent).floor = 0 then settle r fuel (exponent - 1) else exponent

/-- The exponent of the leading digit of `significand * 2 ^ exponent`: the estimate from the
binary exponent is never too small, and at most one too large. -/
def leading (significand : Nat) (exponent : Int) : Int :=
  settle (Ratio.ofBinary significand exponent) 3
    (((significand.log2 : Int) + 1 + exponent) * 1233 / 4096 + 1)

/-- The reals that round to a double, as two ratios and whether the ends belong. -/
structure Interval where
  low : Ratio
  high : Ratio
  closed : Bool

def Interval.contains (i : Interval) (r : Ratio) : Bool :=
  if i.closed then i.low.le r && r.le i.high else i.low.lt r && r.lt i.high

/-- Half a unit to both sides, a quarter below where the binade begins. -/
def interval (significand : Nat) (exponent : Int) : Interval :=
  let below := if significand = Nat.pow 2 52 ∧ exponent ≠ -1074 then 1 else 2
  ⟨Ratio.ofBinary (4 * significand - below) (exponent - 2),
    Ratio.ofBinary (4 * significand + 2) (exponent - 2), significand % 2 == 0⟩

def ratio (d : Decimal) : Ratio := (Ratio.mk d.digits 1).inUnits (-d.exponent)

/-- The better of the two neighbours of `r` among the multiples of `10 ^ exponent`. -/
def neighbour? (r : Ratio) (i : Interval) (exponent : Int) : Option Decimal :=
  let scaled := r.inUnits exponent
  let low : Decimal := ⟨scaled.floor, exponent⟩
  let high : Decimal := ⟨scaled.floor + 1, exponent⟩
  let lowIn := low.digits ≠ 0 && i.contains low.ratio
  let highIn := i.contains high.ratio
  if lowIn && highIn then
    some (if 2 * (scaled.num % scaled.den) < scaled.den then low else high)
  else if lowIn then some low
  else if highIn then some high
  else none

def search (r : Ratio) (i : Interval) : Nat → Int → Decimal
  | 0, exponent => ⟨(r.inUnits exponent).nearest, exponent⟩
  | fuel + 1, exponent =>
      match neighbour? r i exponent with
      | some d => d
      | none => search r i fuel (exponent - 1)

/-- The fewest digits that read back to the double `significand * 2 ^ exponent`. -/
def shortest (significand : Nat) (exponent : Int) : Decimal :=
  trim (search (Ratio.ofBinary significand exponent) (interval significand exponent) 17
    (leading significand exponent))

/-- The value rounded to `count` significant digits, a half going to the even neighbour. -/
def rounded (count : Nat) (significand : Nat) (exponent : Int) : Decimal :=
  let unit := leading significand exponent - count + 1
  ⟨((Ratio.ofBinary significand exponent).inUnits unit).nearest, unit⟩

def digitCount (n : Nat) : Nat := (Nat.toDigits 10 n).length

/-- The nearest double. Decimals beyond the range of doubles are settled before any power of
ten is computed. -/
def toFloat (d : Decimal) : Float :=
  let point := d.exponent + digitCount d.digits
  if d.digits = 0 ∨ point < -400 then 0
  else if 400 < point then 1 / 0
  else Float.ofScientific d.digits (d.exponent < 0) d.exponent.natAbs

/-- How a decimal is laid out: positionally while the leading digit's exponent is in the
window, otherwise with one digit before the point and the exponent after an `e`. -/
structure Layout where
  nan : String
  window : Int → Bool

def zeros (n : Nat) : List Char := List.replicate n '0'

def positional (d : Decimal) : List Char :=
  let ds := Nat.toDigits 10 d.digits
  match d.exponent with
  | .ofNat up => ds ++ zeros up
  | .negSucc down =>
      let places := down + 1
      if ds.length ≤ places then '0' :: '.' :: (zeros (places - ds.length) ++ ds)
      else ds.take (ds.length - places) ++ '.' :: ds.drop (ds.length - places)

def scientific (d : Decimal) : List Char :=
  let ds := Nat.toDigits 10 d.digits
  let lead := d.exponent + ds.length - 1
  let exponent := 'e' :: (toString lead).toList
  match ds with
  | first :: second :: rest => first :: '.' :: second :: (rest ++ exponent)
  | _ => ds ++ exponent

def Layout.magnitude (l : Layout) (d : Decimal) : List Char :=
  if l.window (d.exponent + digitCount d.digits - 1) then positional d else scientific d

def Layout.write (l : Layout) (x : Float) : String :=
  match Binary64.ofFloat x with
  | .nan => l.nan
  | .infinite negative => if negative then "-inf" else "inf"
  | .finite negative significand exponent =>
      let body := if significand = 0 then ['0'] else l.magnitude (shortest significand exponent)
      String.ofList (if negative then '-' :: body else body)

/-- Numbers inside messages never carry an exponent. -/
def plain : Layout := ⟨"NaN", fun _ => true⟩

/-- Numbers handed out carry an exponent outside of `1e-5 ≤ |x| < 1e16`. -/
def compact : Layout := ⟨"nan", fun lead => -5 ≤ lead && lead < 16⟩

/-- `x` rounded to `count` significant decimal digits. -/
def roundTo (count : Nat) (x : Float) : Float :=
  match Binary64.ofFloat x with
  | .finite negative significand exponent =>
      if significand = 0 then x
      else
        let y := (rounded count significand exponent).toFloat
        if negative then -y else y
  | _ => x

/-! ### Reading -/

def digitValue (c : Char) : Nat := c.toNat - '0'.toNat

def natOf (ds : List Char) : Nat := ds.foldl (fun n c => 10 * n + digitValue c) 0

/-- An exponent part: `e` or `E`, an optional sign and at least one digit, and nothing more. -/
def exponent? : List Char → Option Int
  | [] => some 0
  | mark :: rest =>
      if mark = 'e' ∨ mark = 'E' then
        let (negative, ds) := match rest with
          | '-' :: ds => (true, ds)
          | '+' :: ds => (false, ds)
          | ds => (false, ds)
        if ds.isEmpty || !ds.all Char.isDigit then none
        else some (Binary64.applySign negative (natOf ds))
      else none

/-- An unsigned decimal: digits with at most one point, at least one digit, an optional
exponent. -/
def unsigned? (cs : List Char) : Option Decimal :=
  let whole := cs.takeWhile Char.isDigit
  let rest := cs.dropWhile Char.isDigit
  let (fraction, tail) := match rest with
    | '.' :: after => (after.takeWhile Char.isDigit, after.dropWhile Char.isDigit)
    | _ => ([], rest)
  if whole.isEmpty && fraction.isEmpty then none
  else (exponent? tail).map fun e => ⟨natOf (whole ++ fraction), e - fraction.length⟩

def named? (cs : List Char) : Option Float :=
  let word := String.ofList (cs.map Char.toLower)
  if word = "inf" ∨ word = "infinity" then some (1 / 0)
  else if word = "nan" then some (0 / 0)
  else none

def magnitude? (cs : List Char) : Option Float :=
  match unsigned? cs with
  | some d => some d.toFloat
  | none => named? cs

/-- The double a text stands for: an optional sign, then a decimal or a name of an infinity
or of NaN. -/
def read? : List Char → Option Float
  | '-' :: cs => (magnitude? cs).map (-·)
  | '+' :: cs => magnitude? cs
  | cs => magnitude? cs

end Decimal

end MathScript
