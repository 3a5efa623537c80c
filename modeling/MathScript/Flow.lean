import MathScript.Fault
import MathScript.Operator
import MathScript.Value

/-!
Control. A step completes with a value or stops with a signal; signals travel up to the loop,
the call or the program that answers them. What is put together here runs over any state: it
steers steps and touches nothing itself.
-/

namespace MathScript

/-- Whatever keeps a node from completing. `tired` is raised by a loop that has used up the
rounds it was allowed. -/
inductive Signal where
  | leave (payload : Option Float)
  | next
  | give (values : List Value)
  | fault (f : Fault)
  | tired
  deriving DecidableEq

/-- A computation on a state that a signal may stop. -/
abbrev Flow (σ : Type) := EStateM Signal σ

namespace Flow

variable {σ : Type}

/-- One round of a loop: whether the loop goes on, and its value so far. -/
def round (body : Flow σ Value) (last : Value) : Flow σ (Bool × Value) := fun m =>
  match body m with
  | .ok v m => .ok (true, v) m
  | .error .next m => .ok (true, last) m
  | .error (.leave payload) m => .ok (false, (payload.map Value.scalar).getD .null) m
  | .error other m => .error other m

/-- Tests, runs the body and steps, until the test fails or the body leaves the loop. -/
def loop (test : Flow σ Bool) (step : Flow σ Unit) (body : Flow σ Value) :
    Nat → Value → Flow σ Value
  | 0, _ => throw .tired
  | rounds + 1, last => do
      if ← test then
        let (goes, last) ← round body last
        if goes then
          step
          loop test step body rounds last
        else return last
      else return last

/-- Runs the body, then stops if the test holds. -/
def loopUntil (body : Flow σ Value) (stop : Flow σ Bool) : Nat → Value → Flow σ Value
  | 0, _ => throw .tired
  | rounds + 1, last => do
      let (goes, last) ← round body last
      if goes then
        if ← stop then return last
        else loopUntil body stop rounds last
      else return last

/-- The numbers of `count` runs in order. -/
def collect (item : Flow σ Value) : Nat → Array Float → Flow σ (Array Float)
  | 0, xs => return xs
  | count + 1, xs => do collect item count (xs.push (← item).asScalar)

/-- The right side is evaluated only where the left one does not decide. -/
def connect (op : Connective) (left right : Flow σ Value) : Flow σ Value := do
  let l := (← left).isTrue
  match op, l with
  | .and, false => return .scalar (ofBool false)
  | .or, true => return .scalar (ofBool true)
  | _, _ => return .scalar (ofBool (← right).isTrue)

def truth (v : Flow σ Value) : Flow σ Bool := do return (← v).isTrue

def ignore (v : Flow σ Value) : Flow σ Unit := do let _ ← v

/-- Runs a body in the state `into` makes of the caller's, and hands the caller what `back`
makes of its own state and the one the body left, however the body ends. A returned list gives
its first number. -/
def enter (into : σ → σ) (back : σ → σ → σ) (body : Flow σ Value) : Flow σ Float := fun s =>
  match body (into s) with
  | .ok v s' => .ok v.asScalar (back s s')
  | .error (.give values) s' => .ok (values.head?.getD .null).asScalar (back s s')
  | .error (.leave _) s' | .error .next s' => .ok notNumber (back s s')
  | .error other s' => .error other (back s s')

end Flow

end MathScript
