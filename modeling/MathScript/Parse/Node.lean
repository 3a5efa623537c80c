import MathScript.Parse.State

/-!
Building typed nodes. The functions here take no tokens: they put a node together from parts
already parsed, or refuse the parts.
-/

namespace MathScript.Parse

variable (source : Source)

def scalarNode (tree : Tree) : Typed := ⟨tree, .scalar⟩

def requireScalar (node : Typed) (position : Nat) (what : String) : Parse Tree :=
  if node.kind = .scalar then return node.tree
  else fail source position (.notScalar what node.kind)

/-- What an assignment to a node would write. An element of a string is the range from its
index to its index. -/
def aim (node : Typed) (position : Nat) : Parse (Target Tree) :=
  match node.tree with
  | .load ⟨name, .constant _, _⟩ => fail source position (.constantTarget name)
  | .load b => return .whole b
  | .element b index =>
      return if b.kind = .vector then .element b index else .range b (some index) (some index)
  | .slice b first last =>
      if b.kind = .string then return .range b first last
      else fail source position .notTarget
  | _ => fail source position .notTarget

def target (node : Typed) (position : Nat) : Parse (Target Tree) := do
  let t ← aim source node position
  if t.binding.writable then return t
  else fail source position (.readOnly t.binding.name)

/-- Which values may be assigned to a target, and by which operators. -/
def assignable (t : Target Tree) (op : AssignOp) (value : Kind) : Bool :=
  match t, t.kind, value with
  | _, .scalar, .scalar => true
  | _, .vector, .scalar | _, .vector, .vector => true
  | .whole _, .string, .string => op = .set || op = .add
  | .range .., .string, .string => op = .set
  | _, _, _ => false

def assignment (left : Typed) (op : AssignOp) (value : Typed) (position : Nat) : Parse Typed := do
  let t ← target source left position
  if assignable t op value.kind then return ⟨.assign t op value.tree, t.kind⟩
  else fail source position (.unassignable op t.binding.name t.kind value.kind)

def exchange (left right : Typed) (position : Nat) : Parse Typed := do
  let l ← target source left position
  let r ← target source right position
  if l.kind = r.kind then return ⟨.swap l r, l.kind⟩
  else fail source position (.unequalSwap l.kind r.kind)

def conditional (test : Tree) (yes : Typed) (no : Option Typed) (position : Nat) :
    Parse Typed :=
  match no with
  | some n =>
      if n.kind = yes.kind then return ⟨.branch test yes.tree (some n.tree), yes.kind⟩
      else fail source position (.unequalBranches yes.kind n.kind)
  | none => return ⟨.branch test yes.tree none, yes.kind⟩

/-- The node of a binary operator, chosen by the kinds of its sides. -/
def combined? (op : Op) (left right : Typed) : Option Typed :=
  let l := left.tree
  let r := right.tree
  match left.kind, right.kind with
  | .scalar, .scalar =>
      match op with
      | .and => some (scalarNode (.logic .and l r))
      | .or => some (scalarNode (.logic .or l r))
      | .member | .like | .ilike => none
      | _ => some (scalarNode (.apply (.scalars op) [l, r]))
  | .string, .string =>
      if op.isComparison then some (scalarNode (.apply (.strings op) [l, r]))
      else if op = .plus then some ⟨.apply (.strings op) [l, r], .string⟩
      else none
  | .vector, .vector | .vector, .scalar | .scalar, .vector =>
      if op.isArithmetic then some ⟨.apply (.vectors op) [l, r], .vector⟩ else none
  | _, _ => none

def combine (op : Op) (left right : Typed) (position : Nat) : Parse Typed :=
  match combined? op left right with
  | some node => return node
  | none => fail source position (.uncombinable op left.kind right.kind)

/-- Statements in order, typed after the last one. -/
def sequence (items : List Typed) : Typed :=
  match items with
  | [] => scalarNode .null
  | [single] => single
  | _ => ⟨.sequence (items.map Typed.tree), (items.getLast?.map Typed.kind).getD .scalar⟩

/-! ### Calls -/

/-- The trees of arguments that all have to be numbers; `place` counts from one. -/
def scalarArgs (name : String) (position : Nat) (place : Nat) : List Typed → Parse (List Tree)
  | [] => return []
  | a :: args => do
      if a.kind = .scalar then
        let rest ← scalarArgs name position (place + 1) args
        return a.tree :: rest
      else fail source position (.argument place name a.kind)

def checkArity (name : String) (expected found position : Nat) : Parse Unit :=
  if expected = found then return ()
  else fail source position (.wrongArity name expected found)

def fixedArgs (name : String) (arity : Nat) (args : List Typed) (position : Nat) :
    Parse (List Tree) := do
  checkArity source name arity args.length position
  scalarArgs source name position 1 args

/-- Plain variables that may be written are written back to after a generic call. -/
def writeback (a : Typed) : Option Binding :=
  match a.tree with
  | .load b => if b.writable then some b else none
  | _ => none

def call (name : String) (callable : Callable) (args : List Typed) (position : Nat) :
    Parse Typed := do
  match callable with
  | .scalar native arity =>
      return scalarNode (.call (.scalar name native) (← fixedArgs source name arity args position))
  | .vararg native =>
      return scalarNode (.call (.vararg name native) (← scalarArgs source name position 1 args))
  | .generic native signature =>
      match signature.resolve (args.map Typed.kind) with
      | none => fail source position (.noOverload name (args.map Typed.kind))
      | some overload =>
          return scalarNode (.call (.generic name native overload (args.map writeback))
            (args.map Typed.tree))
  | .composed definition arity =>
      return scalarNode (.call (.composed name definition)
        (← fixedArgs source name arity args position))

/-- The node of a built-in function; none if there is none of this name. -/
def builtin (name : String) (args : List Typed) (position : Nat) : Parse Typed := do
  if let some f := Unary.ofName? name then
    checkArity source name 1 args.length position
    match args with
    | [a] =>
        if a.kind = .string then fail source position (.stringArgument name)
        else return ⟨.apply (.unary f) [a.tree], a.kind⟩
    | _ => fail source position (.wrongArity name 1 args.length)
  else if let some f := Binary.ofName? name then
    return scalarNode (.apply (.binary f) (← fixedArgs source name 2 args position))
  else if let some f := Ternary.ofName? name then
    return scalarNode (.apply (.ternary f) (← fixedArgs source name 3 args position))
  else if let some r := Reduction.ofName? name then
    match args with
    | [] => fail source position (.noArguments name)
    | [⟨tree, .vector⟩] => return scalarNode (.apply (.reduceVector r) [tree])
    | _ => return scalarNode (.apply (.reduce r) (← scalarArgs source name position 1 args))
  else fail source position (.undefined name)

end MathScript.Parse
