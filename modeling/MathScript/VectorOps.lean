import MathScript.Builtin
import MathScript.Native
import MathScript.Range

/-!
The bundled package of vector functions. Vectors given as plain variables are changed in
place, since a generic function's parameters are written back.
-/

namespace MathScript.VectorOps

/-! ### Rearrangements -/

/-- In ascending order; elements that compare equal keep their order. -/
def ascending (xs : Array Float) : Array Float :=
  (xs.toList.mergeSort fun x y => !(y < x)).toArray

/-- Every element moved `shift` places towards the front, the first ones to the end. -/
def rotateLeft (xs : Array Float) (shift : Nat) : Array Float :=
  xs.extract shift xs.size ++ xs.extract 0 shift

def rotateRight (xs : Array Float) (shift : Nat) : Array Float :=
  rotateLeft xs (xs.size - shift)

/-- The places a vector of `size` elements turns for an amount. -/
def shift (size : Nat) (amount : Float) : Nat := (Index.ofFloat amount % (size : Int)).toNat

/-- An empty vector stays as it is, and so does any vector turned by an infinity or NaN. -/
def rotate (turn : Array Float → Nat → Array Float) (xs : Array Float) (amount : Float) :
    Array Float :=
  if xs.isEmpty || !amount.isFinite then xs else turn xs (shift xs.size amount)

/-! ### Sums and fills -/

/-- A sum that carries along what each addition lost. -/
def compensatedSum (xs : List Float) : Float :=
  (xs.foldl step (0, 0)).1
where
  step : Float × Float → Float → Float × Float
    | (sum, lost), x =>
        let y := x - lost
        let next := sum + y
        (next, (next - sum) - y)

def dot (xs ys : Array Float) : Float := Reduction.sum.apply (xs.zipWith (· * ·) ys).toList

/-- The numbers `base`, `base + step`, `base + 2 step` and so on. -/
def ramp (length : Nat) (base step : Float) : Array Float :=
  (Array.range length).map fun i => base + step * i.toFloat

/-! ### The functions -/

/-- What a function gives and leaves in its parameters, or the text of its failure. -/
abbrev Answer := Except String (Float × List Param)

def vectorAt (params : List Param) (place : Nat) : Except String (Array Float) :=
  match params[place]? with
  | some (.vector xs) => .ok xs
  | _ => .error "expected a vector argument"

def scalarAt (params : List Param) (place : Nat) : Except String Float :=
  match params[place]? with
  | some (.scalar x) => .ok x
  | _ => .error "expected a scalar argument"

def descends (order : Option Param) : Except String Bool :=
  match order with
  | some (.string "asc") | some (.string "ascending") => .ok false
  | some (.string "desc") | some (.string "descending") => .ok true
  | _ => .error "order must be 'asc' or 'desc'"

/-- The answer 1 with one parameter replaced. -/
def replacing (params : List Param) (place : Nat) (xs : Array Float) : Answer :=
  .ok (1, params.set place (.vector xs))

def sort (overload : Nat) (params : List Param) : Answer := do
  let descending ← if overload = 0 then pure false else descends params[1]?
  let sorted := ascending (← vectorAt params 0)
  replacing params 0 (if descending then sorted.reverse else sorted)

def reverse (_ : Nat) (params : List Param) : Answer := do
  replacing params 0 (← vectorAt params 0).reverse

def iota (overload : Nat) (params : List Param) : Answer := do
  let base ← if 1 ≤ overload then scalarAt params 1 else pure 0
  let step ← if 2 ≤ overload then scalarAt params 2 else pure 1
  replacing params 0 (ramp (← vectorAt params 0).size base step)

def assign (_ : Nat) (params : List Param) : Answer := do
  let x ← scalarAt params 1
  replacing params 0 (Array.replicate (← vectorAt params 0).size x)

def count (_ : Nat) (params : List Param) : Answer := do
  return ((← vectorAt params 0).countP isTrue |>.toFloat, params)

def truth (test : List Float → Bool) (_ : Nat) (params : List Param) : Answer := do
  return (ofBool (test (← vectorAt params 0).toList), params)

/-- The first vector goes over the beginning of the second. -/
def copy (_ : Nat) (params : List Param) : Answer := do
  let source ← vectorAt params 0
  replacing params 1 (Range.refill (← vectorAt params 1) source)

def turning (turn : Array Float → Nat → Array Float) (_ : Nat) (params : List Param) : Answer := do
  let amount ← scalarAt params 1
  replacing params 0 (rotate turn (← vectorAt params 0) amount)

def product (_ : Nat) (params : List Param) : Answer := do
  let xs ← vectorAt params 0
  return (dot xs (← vectorAt params 1), params)

def carefulSum (_ : Nat) (params : List Param) : Answer := do
  return (compensatedSum (← vectorAt params 0).toList, params)

/-- The second vector times a number, added to the third. -/
def axpy (_ : Nat) (params : List Param) : Answer := do
  let a ← scalarAt params 0
  let xs ← vectorAt params 1
  let ys ← vectorAt params 2
  replacing params 2 (Range.refill ys (ys.zipWith (fun y x => y + a * x) xs))

/-- A function of the package under its name. -/
def entry (name signature : String) (run : Nat → List Param → Answer) : String × Native :=
  (name, .generic signature fun kept overload params =>
    match run overload params with
    | .ok (x, params) => ⟨.ok x, params, kept⟩
    | .error text => ⟨.error (.native name text), params, kept⟩)

def package : Package where
  name := "vecops"
  functions := [
    entry "sort" "V|VS" sort,
    entry "reverse" "V" reverse,
    entry "iota" "V|VT|VTT" iota,
    entry "assign" "VT" assign,
    entry "count" "V" count,
    entry "all_true" "V" (truth fun xs => xs.all isTrue),
    entry "any_true" "V" (truth fun xs => xs.any isTrue),
    entry "all_false" "V" (truth fun xs => xs.all fun x => !isTrue x),
    entry "any_false" "V" (truth fun xs => xs.any fun x => !isTrue x),
    entry "copy" "VV" copy,
    entry "rol" "VT" (turning rotateLeft),
    entry "ror" "VT" (turning rotateRight),
    entry "dot" "VV" product,
    entry "sumk" "V" carefulSum,
    entry "axpy" "TVV" axpy]

end MathScript.VectorOps
