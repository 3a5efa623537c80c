import MathScript.Proofs.Meaning

/-!
Recorded evaluation. A tape is a machine together with what is known of the running body's
frame and with a log of what happened: which bindings were read or written and as what, which
slots were filled, which operations and which calls of generic functions got which values, and
what every node that completed yielded.
-/

namespace MathScript

/-- The slots of a running body: how many there are, and what was put into them so far. -/
structure Frame where
  room : Nat
  placed : List (Nat × Kind)
  deriving DecidableEq

/-- A binding is touched as a value of the kind `use`. -/
inductive Event where
  | touch (b : Binding) (use : Kind) (writes : Bool)
  | place (slot : Nat) (kind : Kind)
  | apply (op : Operation) (args : List Tree) (values : List Value)
  | offer (native overload : Nat) (args : List Tree) (values : List Value)
  | finish (node : Tree) (value : Value)

/-- An event with the slots it found. -/
structure Moment where
  event : Event
  locals : Array Value
  frame : Frame

/-- The log has the newest moment first. -/
structure Tape where
  machine : Machine
  frame : Frame
  log : List Moment

/-- What an index of a variable reaches into. -/
def Binding.indexed (b : Binding) : Kind := if b.kind = .string then .string else .vector

namespace Target

variable {α : Type}

/-- What a target reaches into. -/
def reach : Target α → Kind
  | .whole b => b.kind
  | .element .. => .vector
  | .range .. => .string

/-- What a target is written as. -/
def storing (target : Target α) (v : Value) : Kind :=
  match target with
  | .whole _ => v.kind?.getD .scalar
  | other => other.reach

end Target

namespace Tape

def note (e : Event) : Flow Tape Unit :=
  modify fun t => { t with log := ⟨e, t.machine.locals, t.frame⟩ :: t.log }

/-- A step of the machine on a tape. -/
def lift {α : Type} (x : Eval α) : Flow Tape α := fun t =>
  match x t.machine with
  | .ok a m => .ok a { t with machine := m }
  | .error e m => .error e { t with machine := m }

/-- A step on what a binding stands for, noted in front of it and behind it. -/
def touching {α : Type} (b : Binding) (use : Kind) (writes : Bool) (x : Eval α) :
    Flow Tape α := do
  note (.touch b use writes)
  let a ← lift x
  note (.touch b use writes)
  return a

def declare (slot : Nat) (kind : Kind) (v : Value) : Flow Tape Unit := do
  note (.place slot kind)
  lift (modify fun m => m.declare slot v)
  modify fun t => { t with frame := { t.frame with placed := (slot, kind) :: t.frame.placed } }

/-- Parameters are written back one at a time, those of another kind than their variable not
at all. -/
def writeBack : List Param → List (Option Binding) → Flow Tape Unit
  | p :: params, some b :: bindings => do
      if p.kind = b.kind then touching b p.kind true (modify (Eval.writeBack [p] [some b]))
      writeBack params bindings
  | _ :: params, none :: bindings => writeBack params bindings
  | _, _ => return ()

def callGeneric (host : Host) (native overload : Nat) (writeback : List (Option Binding))
    (args : List Tree) (values : List Value) : Flow Tape Value := do
  note (.offer native overload args values)
  match ← lift (Eval.ask host native overload values) with
  | some ⟨.ok x, params, _⟩ =>
      writeBack params writeback
      return .scalar x
  | some ⟨.error f, _, _⟩ => throw (.fault f)
  | none => return .null

/-- The tape on which a body starts: its arguments are in its first slots. -/
def into (program : Program) (args : List Float) (t : Tape) : Tape :=
  { t with
    machine := { t.machine with locals := Host.frame program args }
    frame := ⟨program.frameSize, (List.range args.length).map fun i => (i, .scalar)⟩ }

def back (before t : Tape) : Tape :=
  { t with machine := { t.machine with locals := before.machine.locals }, frame := before.frame }

def kernel (host : Host) : Kernel Tape where
  load b := touching b b.kind false (Eval.load b)
  element b x := touching b b.indexed false (Eval.element host.check b x)
  slice b x y := touching b b.indexed false (Eval.slice host.check b x y)
  size b := touching b b.kind false (Eval.size b)
  assign t op v := touching t.binding t.reach true (Eval.assign host.check t op v)
  readTarget t := touching t.binding t.reach false (Eval.readTarget host.check t)
  writeTarget t v := touching t.binding (t.storing v) true (Eval.writeTarget t v)
  declare := declare
  numeric native values := lift (Eval.callNumeric host native values)
  generic := callGeneric host
  enter program args := Flow.enter (into program args) back
  applied op args values := note (.apply op args values)
  finished t v := note (.finish t v)

def blank (program : Program) (store : Store) : Tape :=
  ⟨⟨store, Host.frame program [], #[]⟩, ⟨program.frameSize, []⟩, []⟩

end Tape

open Tree

/-- A program evaluated from the top on a tape. -/
def Host.record (host : Host) (program : Program) (store : Store) :
    EStateM.Result Signal Tape Value :=
  program.tree.walk (Tape.kernel host) host ((Tape.kernel host).invoke host host.limit)
    (Tape.blank program store)

/-- What happens in an evaluation, the newest moment first. -/
def Host.log (host : Host) (program : Program) (store : Store) : List Moment :=
  match host.record program store with
  | .ok _ t | .error _ t => t.log

end MathScript
