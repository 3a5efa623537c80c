import MathScript.Proofs.Beside
import MathScript.Proofs.Steered

/-!
Evaluation by the loops of the text. A break or a continue notes first how many loops of the text
it is inside of, which names the innermost of them; a loop answers what its body has noted for
that loop and lets everything else pass. The parts of a loop outside of its body are evaluated
where the loop itself is. A list that is returned is noted with every item beside its value, and
with how many bodies of functions are running.
-/

namespace MathScript

structure Return where
  running : Nat
  items : List (Tree × Value)

namespace Return

def values (r : Return) : List Value := r.items.map Prod.snd

def node (r : Return) : Tree := .returnList (r.items.map Prod.fst)

end Return

/-- How many loops the last break or continue was inside of, how many bodies are running, and the
lists returned so far, the newest first. -/
structure Course where
  level : Nat
  running : Nat
  returns : List Return

namespace Course

def exit (level : Nat) (c : Course) : Course := { c with level := level }

def give (items : List (Tree × Value)) (c : Course) : Course :=
  { c with returns := ⟨c.running, items⟩ :: c.returns }

def into (c : Course) : Course := { c with running := c.running + 1 }

def back (before after : Course) : Course := { after with running := before.running }

end Course

/-- A machine steps on with a course beside it. -/
def Host.steering (host : Host) : Kernel (Beside Course) :=
  (Acts.through Beside.lift
    (fun b length index => Beside.lift (Eval.report host.check b length index)) host).kernel
    (Beside.enter Course.into Course.back)

namespace Flow

/-- One round of the loop whose body is inside of `level` loops. -/
def roundAt (level : Nat) (body : Flow (Beside Course) Value) (last : Value) :
    Flow (Beside Course) (Bool × Value) := fun s =>
  if (lastState (body s)).notes.level = level then round body last s
  else
    match body s with
    | .ok v s => .ok (true, v) s
    | .error e s => .error e s

def loopAt (level : Nat) (test : Flow (Beside Course) Bool) (step : Flow (Beside Course) Unit)
    (body : Flow (Beside Course) Value) : Nat → Value → Flow (Beside Course) Value
  | 0, _ => throw .tired
  | rounds + 1, last => do
      if ← test then
        let (goes, last) ← roundAt level body last
        if goes then
          step
          loopAt level test step body rounds last
        else return last
      else return last

def loopUntilAt (level : Nat) (body : Flow (Beside Course) Value)
    (stop : Flow (Beside Course) Bool) : Nat → Value → Flow (Beside Course) Value
  | 0, _ => throw .tired
  | rounds + 1, last => do
      let (goes, last) ← roundAt level body last
      if goes then
        if ← stop then return last
        else loopUntilAt level body stop rounds last
      else return last

end Flow

namespace Tree

open Flow

variable (host : Host) (invoke : Kernel.Invoking (Beside Course))

mutual

/-- The meaning of a node inside of `level` loops. -/
def steer (level : Nat) : Tree → Flow (Beside Course) Value
  | .null => return .null
  | .number x => return .scalar x
  | .text s => return .string s
  | .load b => host.steering.load b
  | .element b index => do host.steering.element b (← index.steer level).asScalar
  | .slice b first last => do
      let first ← steerIndex level first
      let last ← steerIndex level last
      host.steering.slice b first last
  | .size b => host.steering.size b
  | .apply op args => do return op.result ((← steerItems level args).map Prod.snd)
  | .logic op left right => connect op (left.steer level) (right.steer level)
  | .call callee args =>
      host.steering.call host invoke callee args do
        return (← steerItems level args).map Prod.snd
  | .branch test yes no => do
      if ← truth (test.steer level) then yes.steer level
      else steerOption level no
  | .switch cases default => do
      match ← steerCases level cases with
      | some v => return v
      | none => steerOption level default
  | .whileLoop test body =>
      loopAt (level + 1) (truth (test.steer level)) (pure ()) (body.steer (level + 1))
        host.rounds .null
  | .forLoop first test step body => do
      ignore (steerOption level first)
      loopAt (level + 1) (steerTest level test) (ignore (steerOption level step))
        (body.steer (level + 1)) host.rounds .null
  | .repeatLoop body stop =>
      loopUntilAt (level + 1) (body.steer (level + 1)) (truth (stop.steer level)) host.rounds .null
  | .breakLoop payload => do
      let payload ← steerIndex level payload
      Beside.note fun _ c => c.exit level
      throw (.leave payload)
  | .continueLoop => do
      Beside.note fun _ c => c.exit level
      throw .next
  | .returnList items => do
      let items ← steerItems level items
      Beside.note fun _ c => c.give items
      throw (.give (items.map Prod.snd))
  | .sequence items => steerSequence level .null items
  | .declare slot shape parts => do
      let v ← initial shape (do return (← steerItems level parts).map Prod.snd) fun absent =>
        steerFirst level absent parts
      host.steering.declare slot shape.kind v
      return shape.yield v
  | .assign target op value => do
      let v ← value.steer level
      let t ← steerTarget level target
      host.steering.assign t op v
  | .swap left right => host.steering.swap (steerTarget level left) (steerTarget level right)

def steerOption (level : Nat) : Option Tree → Flow (Beside Course) Value
  | none => return .null
  | some t => t.steer level

def steerIndex (level : Nat) : Option Tree → Flow (Beside Course) (Option Float)
  | none => return none
  | some t => do return some (← t.steer level).asScalar

def steerTest (level : Nat) : Option Tree → Flow (Beside Course) Bool
  | none => return true
  | some t => truth (t.steer level)

/-- The trees of a list in order, each with its value. -/
def steerItems (level : Nat) : List Tree → Flow (Beside Course) (List (Tree × Value))
  | [] => return []
  | t :: ts => do
      let v ← t.steer level
      let items ← steerItems level ts
      return (t, v) :: items

def steerFirst (level : Nat) (absent : Value) : List Tree → Flow (Beside Course) Value
  | [] => return absent
  | t :: _ => t.steer level

def steerSequence (level : Nat) (last : Value) : List Tree → Flow (Beside Course) Value
  | [] => return last
  | t :: ts => do steerSequence level (← t.steer level) ts

def steerCases (level : Nat) : List (Tree × Tree) → Flow (Beside Course) (Option Value)
  | [] => return none
  | (test, body) :: cases => do
      if ← truth (test.steer level) then return some (← body.steer level)
      else steerCases level cases

def steerTarget (level : Nat) : Target Tree → Flow (Beside Course) (Target Float)
  | .whole b => return .whole b
  | .element b index => do return .element b (← index.steer level).asScalar
  | .range b first last => do
      let first ← steerIndex level first
      let last ← steerIndex level last
      return .range b first last

end

end Tree

namespace Host

variable (host : Host)

/-- Invocation with `calls` to go. A body is inside of no loop. -/
def steered : Nat → Kernel.Invoking (Beside Course)
  | 0, name, _, _ => throw (.fault (.recursionLimit name host.limit))
  | calls + 1, _, program, args =>
      Beside.enter Course.into Course.back program args
        (program.tree.steer host (steered calls) 0)

/-- An evaluation from the top by the loops of the text. -/
def course (program : Program) (store : Store) : EStateM.Result Signal (Beside Course) Value :=
  program.tree.steer host (host.steered host.limit) 0 ⟨start program store, ⟨0, 0, []⟩⟩

/-- The lists an evaluation returns, the newest first. -/
def returns (program : Program) (store : Store) : List Return :=
  (lastState (host.course program store)).notes.returns

end Host

end MathScript
