import MathScript.Check
import MathScript.Flow
import MathScript.Native
import MathScript.Range
import MathScript.Tree

/-!
The state of an evaluation and the steps that touch it: reading and writing places, elements,
ranges and targets.
-/

namespace MathScript

/-- Storage, the slots of the current frame, and the accesses handed to the check so far. -/
structure Machine where
  store : Store
  locals : Array Value
  reports : Array Access
  deriving DecidableEq

abbrev Eval := Flow Machine

namespace Machine

def slot (m : Machine) (i : Nat) : Value := m.locals.getD i .null

def read (m : Machine) : Place → Value
  | .scalar c => .scalar (m.store.scalar c)
  | .constant x => .scalar x
  | .vector c => .vector (m.store.vector c)
  | .string c => .string (m.store.string c)
  | .slot i _ => m.slot i

def vectorAt (m : Machine) (p : Place) : Array Float :=
  match m.read p with
  | .vector xs => xs
  | _ => #[]

def stringAt (m : Machine) (p : Place) : String := (m.read p).asString

def setScalar (m : Machine) (p : Place) (x : Float) : Machine :=
  match p with
  | .scalar c => { m with store := m.store.setScalar c x }
  | .slot i _ => { m with locals := m.locals.setIfInBounds i (.scalar x) }
  | _ => m

def modifyVector (m : Machine) (p : Place) (f : Array Float → Array Float) : Machine :=
  match p with
  | .vector c => { m with store := m.store.modifyVector c f }
  | .slot i _ =>
      { m with locals := m.locals.modify i fun v =>
          match v with
          | .vector xs => .vector (f xs)
          | other => other }
  | _ => m

def modifyString (m : Machine) (p : Place) (f : String → String) : Machine :=
  match p with
  | .string c => { m with store := m.store.modifyString c f }
  | .slot i _ =>
      { m with locals := m.locals.modify i fun v =>
          match v with
          | .string s => .string (f s)
          | other => other }
  | _ => m

def declare (m : Machine) (slot : Nat) (v : Value) : Machine :=
  { m with locals := m.locals.setIfInBounds slot v }

def setMemory (m : Machine) (memory : Memory) (n : Nat) : Machine :=
  { m with store := m.store.setMemory memory n }

end Machine

namespace Eval

def load (b : Binding) : Eval Value := fun m => .ok (m.read b.place) m

def vectorOf (b : Binding) : Eval (Array Float) := fun m => .ok (m.vectorAt b.place) m

def stringOf (b : Binding) : Eval String := fun m => .ok (m.stringAt b.place) m

def fault {α : Type} (f : Fault) : Eval α := throw (.fault f)

/-- Hands an access to the check, if there is one. -/
def report (check : Option Check) (b : Binding) (length : Nat) (index : Int) : Eval Unit :=
  match check with
  | none => pure ()
  | some c => do
      let access : Access := ⟨b.name, index, length⟩
      let kept ← modifyGet fun m => (m.store.memory c.memory, m)
      let (verdict, kept) := c.judge kept access
      modify fun m => { m.setMemory c.memory kept with reports := m.reports.push access }
      match verdict with
      | some f => fault f
      | none => pure ()

def elementAt? (xs : Array Float) (index : Int) : Option Float :=
  if index < 0 then none else xs[index.toNat]?

/-- The element, or none once the check has let an outside access pass. -/
def element? (check : Option Check) (b : Binding) (index : Float) : Eval (Option Float) := do
  let xs ← vectorOf b
  match elementAt? xs (Index.ofFloat index) with
  | some x => return some x
  | none =>
      report check b xs.size (Index.ofFloat index)
      return none

def element (check : Option Check) (b : Binding) (index : Float) : Eval Value := do
  match b.kind with
  | .string => return .string (Range.substring (← stringOf b) index index)
  | _ => return .scalar ((← element? check b index).getD notNumber)

/-- Every bound that was written and lies outside is reported on its own. -/
def reportBound (check : Option Check) (b : Binding) (length : Nat) : Option Float → Eval Unit
  | none => pure ()
  | some x => if Index.within length x then pure () else report check b length (Index.ofFloat x)

def infinity : Float := 1 / 0

def slice (check : Option Check) (b : Binding) (first last : Option Float) : Eval Value := do
  match b.kind with
  | .string =>
      return .string (Range.substring (← stringOf b) (first.getD 0) (last.getD infinity))
  | _ =>
      let length := (← vectorOf b).size
      reportBound check b length first
      reportBound check b length last
      return .vector (Range.slice (← vectorOf b) (first.getD 0) (last.getD infinity))

/-- Elements of a vector, characters of a string, one for a number. -/
def size (b : Binding) : Eval Value := do
  match b.kind with
  | .vector => return .scalar (← vectorOf b).size.toFloat
  | .string => return .scalar (← stringOf b).length.toFloat
  | .scalar => return .scalar 1

/-! ### Assignment -/

/-- What a vector holds after an assignment over it. -/
def combineVector (op : AssignOp) (old : Array Float) : Value → Array Float
  | .vector new => Range.refill old (old.zipWith op.combine new)
  | other => old.map fun x => op.combine x other.asScalar

def combineString (op : AssignOp) (old new : String) : String :=
  match op with
  | .add => old ++ new
  | _ => new

def assignWhole (b : Binding) (op : AssignOp) (v : Value) : Eval Value := do
  match b.kind with
  | .scalar =>
      let x := op.combine (← load b).asScalar v.asScalar
      modify fun m => m.setScalar b.place x
      return .scalar x
  | .vector =>
      modify fun m => m.modifyVector b.place fun old => combineVector op old v
      return .vector (← vectorOf b)
  | .string =>
      modify fun m => m.modifyString b.place fun old => combineString op old v.asString
      return .string (← stringOf b)

def setElementAt (xs : Array Float) (index : Int) (x : Float) : Array Float :=
  if index < 0 then xs else xs.setIfInBounds index.toNat x

def setElement (b : Binding) (index : Float) (x : Float) : Eval Unit :=
  modify fun m => m.modifyVector b.place fun xs => setElementAt xs (Index.ofFloat index) x

def assign (check : Option Check) (target : Target Float) (op : AssignOp) (v : Value) :
    Eval Value := do
  match target with
  | .whole b => assignWhole b op v
  | .element b index =>
      match ← element? check b index with
      | some current =>
          let x := op.combine current v.asScalar
          setElement b index x
          return .scalar x
      | none => return .scalar notNumber
  | .range b first last =>
      modify fun m => m.modifyString b.place fun old =>
        Range.overwriteText old (first.getD 0) (last.getD infinity) v.asString
      return .string (← stringOf b)

/-- The value of a target; none when it is an element outside of its vector. -/
def readTarget (check : Option Check) : Target Float → Eval (Option Value)
  | .whole b => do return some (← load b)
  | .element b index => do return (← element? check b index).map .scalar
  | .range b first last => do
      return some (.string (Range.substring (← stringOf b) (first.getD 0) (last.getD infinity)))

def writeTarget (target : Target Float) (v : Value) : Eval Unit :=
  match target with
  | .whole b =>
      modify fun m =>
        match v with
        | .vector new => m.modifyVector b.place fun old => Range.refill old new
        | .string new => m.modifyString b.place fun _ => new
        | other => m.setScalar b.place other.asScalar
  | .element b index => setElement b index v.asScalar
  | .range b first last =>
      modify fun m => m.modifyString b.place fun old =>
        Range.overwriteText old (first.getD 0) (last.getD infinity) v.asString

/-- Exchanges two targets, or does nothing when one of them is outside of its vector. -/
def swap (check : Option Check) (left right : Eval (Target Float)) : Eval Value := do
  let left ← left
  let old ← readTarget check left
  let right ← right
  match old, ← readTarget check right with
  | some a, some b =>
      writeTarget left b
      writeTarget right a
      return a
  | _, _ => return .null

end Eval

end MathScript
