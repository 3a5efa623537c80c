import MathScript.Native

/-!
Stock native functions: each is known by the name of what it does, and a host registers them
under names of its own.
-/

namespace MathScript.Stock

/-- What a function of numbers does. -/
inductive Numeric where
  | sum
  | weighted
  | argc
  | last
  | counter
  deriving DecidableEq

namespace Numeric

def ofName : String → Numeric
  | "sum" => .sum
  | "weighted" => .weighted
  | "argc" => .argc
  | "last" => .last
  | _ => .counter

/-- The sum of the numbers from `acc` on, each times its place counted from `place`. -/
def weigh (acc : Float) (place : Nat) : List Float → Float
  | [] => acc
  | x :: xs => weigh (acc + place.toFloat * x) (place + 1) xs

/-- The memory counts the calls. -/
def run (f : Numeric) (calls : Nat) (args : List Float) : Float × Nat :=
  let x := match f with
    | .sum => args.foldl (· + ·) 0
    | .weighted => weigh 0 1 args
    | .argc => args.length.toFloat
    | .last => args.getLast?.getD notNumber
    | .counter => (calls + 1).toFloat
  (x, calls + 1)

end Numeric

/-- What a generic function does. -/
inductive Generic where
  | overload
  | kinds
  | measure
  | fail
  | abort
  | grow
  | shrink
  | retype
  deriving DecidableEq

namespace Generic

def ofName : String → Generic
  | "overload" => .overload
  | "kinds" => .kinds
  | "measure" => .measure
  | "fail" => .fail
  | "abort" => .abort
  | "grow" => .grow
  | "shrink" => .shrink
  | _ => .retype

def digit : Param → Float
  | .scalar _ => 1
  | .vector _ => 2
  | .string _ => 3

def size : Param → Float
  | .scalar x => x
  | .vector xs => xs.size.toFloat
  | .string s => s.length.toFloat

def grown : Param → Param
  | .scalar x => .scalar (x + 1)
  | .vector xs => .vector ((xs.map fun x => x * 2).push 99)
  | .string s => .string (s ++ "!")

def shrunk : Param → Param
  | .scalar x => .scalar x
  | .vector xs => .vector ((xs.extract 0 1).map fun _ => -1)
  | .string _ => .string ""

/-- The answer of a function called `name`. -/
def run (f : Generic) (name : String) (kept overload : Nat) (params : List Param) : Reply :=
  let count := params.length.toFloat
  match f with
  | .overload => ⟨.ok (10 * overload.toFloat + count), params, kept⟩
  | .kinds => ⟨.ok (params.foldl (fun n p => 10 * n + digit p) 0), params, kept⟩
  | .measure => ⟨.ok (params.foldl (fun n p => n + size p) 0), params, kept⟩
  | .fail => ⟨.error (.native name "refused"), params, kept⟩
  | .abort => ⟨.error (.aborted "by host"), params, kept⟩
  | .grow => ⟨.ok count, params.map grown, kept⟩
  | .shrink => ⟨.ok count, params.map shrunk, kept⟩
  | .retype => ⟨.ok count, params.map fun _ => .string "retyped", kept⟩

end Generic

def scalar (arity : Nat) (behaviour : String) : Native :=
  .scalar arity (Numeric.ofName behaviour).run

def vararg (behaviour : String) : Native := .vararg (Numeric.ofName behaviour).run

def generic (name signature behaviour : String) : Native :=
  .generic signature ((Generic.ofName behaviour).run name)

end MathScript.Stock
