import MathScript.Machine

/-!
Evaluation. The meaning of a node is put together from the meanings of the nodes below it. A
call of a function written in the language runs with one call less to go; a call with none to
go is the recursion fault. Loops are allowed a number of rounds each.
-/

namespace MathScript

structure Registered where
  native : Native
  memory : Memory

/-- What evaluation finds around it: native functions, the bodies of the functions that are
still to be had, the check, the call depth limit, and the rounds a loop may take. -/
structure Host where
  natives : Array Registered
  body? : Nat → Option Program
  check : Option Check
  limit : Nat
  rounds : Nat

/-- How a body is run from where we are. -/
abbrev Invoke := String → Program → List Float → Eval Float

namespace Eval

def writeBack : List Param → List (Option Binding) → Machine → Machine
  | p :: params, some b :: bindings, m =>
      let m := match b.kind, p with
        | .scalar, .scalar x => m.setScalar b.place x
        | .vector, .vector new => m.modifyVector b.place fun old => Range.refill old new
        | .string, .string new => m.modifyString b.place fun _ => new
        | _, _ => m
      writeBack params bindings m
  | _ :: params, none :: bindings, m => writeBack params bindings m
  | _, _, m => m

/-- A native function of numbers; null if the number is not that of one. -/
def callNumeric (host : Host) (native : Nat) (args : List Value) : Eval Value := fun m =>
  match host.natives[native]? with
  | some ⟨.scalar _ run, memory⟩ | some ⟨.vararg run, memory⟩ =>
      let (x, kept) := run (m.store.memory memory) (args.map Value.asScalar)
      .ok (.scalar x) (m.setMemory memory kept)
  | _ => .ok .null m

/-- The answer of a generic native function; none if the number is not that of one. -/
def ask (host : Host) (native overload : Nat) (args : List Value) : Eval (Option Reply) :=
  fun m =>
    match host.natives[native]? with
    | some ⟨.generic _ run, memory⟩ =>
        let reply := run (m.store.memory memory) overload (args.map Param.ofValue)
        .ok (some reply) (m.setMemory memory reply.memory)
    | _ => .ok none m

def callGeneric (host : Host) (native overload : Nat) (writeback : List (Option Binding))
    (args : List Value) : Eval Value := do
  match ← ask host native overload args with
  | some ⟨.ok x, params, _⟩ =>
      modify (writeBack params writeback)
      return .scalar x
  | some ⟨.error f, _, _⟩ => fault f
  | none => return .null

/-- A body is looked for before the arguments are evaluated. -/
def call (host : Host) (invoke : Invoke) (callee : Callee) (args : Eval (List Value)) :
    Eval Value := do
  match callee with
  | .composed name definition =>
      match host.body? definition with
      | none => fault (.unavailable name)
      | some program =>
          let args ← args
          return .scalar (← invoke name program (args.map Value.asScalar))
  | .scalar _ native | .vararg _ native => callNumeric host native (← args)
  | .generic _ native overload writeback =>
      callGeneric host native overload writeback (← args)

end Eval

/-- The value a declared slot starts with, given how the parts of the declaration are
evaluated: all of them, or the first one, which may be absent. -/
def Flow.initial {σ : Type} (shape : Shape) (all : Flow σ (List Value))
    (first : Value → Flow σ Value) : Flow σ Value := do
  match shape with
  | .scalar => return .scalar (← first (.scalar 0)).asScalar
  | .string => return .string (← first (.string "")).asString
  | .vector length fill =>
      let zeros := Array.replicate length (0 : Float)
      match fill with
      | .zero => return .vector zeros
      | .literal => return .vector (Range.refill zeros ((← all).map Value.asScalar).toArray)
      | .each => return .vector (← collect (first .null) length #[])
      | .copy => return .vector (Range.refill zeros (← first .null).asVector)

/-- A declaration yields the number it declares, and nothing for a vector or a string. -/
def Shape.yield (shape : Shape) (v : Value) : Value :=
  match shape with
  | .scalar => v
  | .string | .vector .. => .null

namespace Tree

open Eval Flow

mutual

def eval (host : Host) (invoke : Invoke) : Tree → Eval Value
  | .null => return .null
  | .number x => return .scalar x
  | .text s => return .string s
  | .load b => Eval.load b
  | .element b index => do Eval.element host.check b (← index.eval host invoke).asScalar
  | .slice b first last => do
      let first ← evalIndex host invoke first
      let last ← evalIndex host invoke last
      Eval.slice host.check b first last
  | .size b => Eval.size b
  | .apply op args => do return op.result (← evalList host invoke args)
  | .logic op left right => connect op (left.eval host invoke) (right.eval host invoke)
  | .call callee args => Eval.call host invoke callee (evalList host invoke args)
  | .branch test yes no => do
      if ← truth (test.eval host invoke) then yes.eval host invoke
      else evalOption host invoke no
  | .switch cases default => do
      match ← evalCases host invoke cases with
      | some v => return v
      | none => evalOption host invoke default
  | .whileLoop test body =>
      loop (truth (test.eval host invoke)) (pure ()) (body.eval host invoke) host.rounds .null
  | .forLoop first test step body => do
      ignore (evalOption host invoke first)
      loop (evalTest host invoke test) (ignore (evalOption host invoke step))
        (body.eval host invoke) host.rounds .null
  | .repeatLoop body stop =>
      loopUntil (body.eval host invoke) (truth (stop.eval host invoke)) host.rounds .null
  | .breakLoop payload => do throw (.leave (← evalIndex host invoke payload))
  | .continueLoop => throw .next
  | .returnList items => do throw (.give (← evalList host invoke items))
  | .sequence items => evalSequence host invoke .null items
  | .declare slot shape parts => do
      let v ← initial shape (evalList host invoke parts) fun absent =>
        evalFirst host invoke absent parts
      modify fun m => m.declare slot v
      return shape.yield v
  | .assign target op value => do
      let v ← value.eval host invoke
      let t ← evalTarget host invoke target
      Eval.assign host.check t op v
  | .swap left right =>
      Eval.swap host.check (evalTarget host invoke left) (evalTarget host invoke right)

/-- Null where there is no node. -/
def evalOption (host : Host) (invoke : Invoke) : Option Tree → Eval Value
  | none => return .null
  | some t => t.eval host invoke

/-- The number of an index, a bound or a payload that may be absent. -/
def evalIndex (host : Host) (invoke : Invoke) : Option Tree → Eval (Option Float)
  | none => return none
  | some t => do return some (← t.eval host invoke).asScalar

/-- An absent condition holds. -/
def evalTest (host : Host) (invoke : Invoke) : Option Tree → Eval Bool
  | none => return true
  | some t => truth (t.eval host invoke)

def evalList (host : Host) (invoke : Invoke) : List Tree → Eval (List Value)
  | [] => return []
  | t :: ts => do
      let v ← t.eval host invoke
      let vs ← evalList host invoke ts
      return v :: vs

def evalFirst (host : Host) (invoke : Invoke) (absent : Value) : List Tree → Eval Value
  | [] => return absent
  | t :: _ => t.eval host invoke

/-- The value of the last node. -/
def evalSequence (host : Host) (invoke : Invoke) (last : Value) : List Tree → Eval Value
  | [] => return last
  | t :: ts => do evalSequence host invoke (← t.eval host invoke) ts

/-- The value of the first case whose condition holds. -/
def evalCases (host : Host) (invoke : Invoke) : List (Tree × Tree) → Eval (Option Value)
  | [] => return none
  | (test, body) :: cases => do
      if ← truth (test.eval host invoke) then return some (← body.eval host invoke)
      else evalCases host invoke cases

def evalTarget (host : Host) (invoke : Invoke) : Target Tree → Eval (Target Float)
  | .whole b => return .whole b
  | .element b index => do return .element b (← index.eval host invoke).asScalar
  | .range b first last => do
      let first ← evalIndex host invoke first
      let last ← evalIndex host invoke last
      return .range b first last

end

end Tree

namespace Host

/-- The slots of a fresh frame: the arguments, then nothing. -/
def frame (program : Program) (args : List Float) : Array Value :=
  (args.map Value.scalar ++
    List.replicate (program.frameSize - args.length) Value.null).toArray

/-- Runs a body on a frame of its own and gives the caller its frame back, however the body
ends. -/
def enter (program : Program) (args : List Float) : Eval Value → Eval Float :=
  Flow.enter (fun m => { m with locals := frame program args })
    fun before m => { m with locals := before.locals }

/-- Invocation with `depth` calls to go. -/
def invoke (host : Host) : Nat → Invoke
  | 0, name, _, _ => Eval.fault (.recursionLimit name host.limit)
  | depth + 1, _, program, args =>
      enter program args (program.tree.eval host (invoke host depth))

inductive Outcome where
  | finished (value : Value) (results : Option (List Value))
  | faulted (f : Fault)
  | tired
  deriving DecidableEq

/-- How an evaluation ended, the storage it left, and the accesses its check was told of. -/
structure Report where
  outcome : Outcome
  store : Store
  accesses : List Access

/-- Evaluates a program from the top. -/
def run (host : Host) (program : Program) (store : Store) : Report :=
  let done (outcome : Outcome) (m : Machine) : Report := ⟨outcome, m.store, m.reports.toList⟩
  match program.tree.eval host (host.invoke host.limit) ⟨store, frame program [], #[]⟩ with
  | .ok v m => done (.finished v none) m
  | .error (.give values) m => done (.finished (values.head?.getD .null) (some values)) m
  | .error (.leave _) m | .error .next m => done (.finished .null none) m
  | .error (.fault f) m => done (.faulted f) m
  | .error .tired m => done .tired m

end Host

end MathScript
