import MathScript.Fault
import MathScript.Identifier
import MathScript.Named
import MathScript.Native
import MathScript.Signature
import MathScript.Store

/-!
Symbol tables: what the names of a host stand for. A table grows and shrinks one name at a
time, or by a whole group of names, until it is made immutable.
-/

namespace MathScript

/-- A function with what a call has to satisfy: a native function by its number, a function
written in the language by the number of its definition. -/
inductive Callable where
  | scalar (native : Nat) (arity : Nat)
  | vararg (native : Nat)
  | generic (native : Nat) (signature : Signature)
  | composed (definition : Nat) (arity : Nat)
  deriving DecidableEq

inductive Symbol where
  | scalar (cell : Cell .scalar)
  | constant (x : Float)
  | vector (cell : Cell .vector)
  | string (cell : Cell .string)
  | function (f : Callable)
  deriving DecidableEq

def Symbol.isVariable : Symbol → Bool
  | .scalar _ | .vector _ | .string _ => true
  | .constant _ | .function _ => false

/-- What a native function registered under `name` as number `number` is called by, a generic one
by the signature its text is read as. -/
def Native.callable (f : Native) (name : String) (number : Nat) : Except SymbolError Callable :=
  match f with
  | .scalar arity _ => .ok (.scalar number arity)
  | .vararg _ => .ok (.vararg number)
  | .generic text _ =>
      match Signature.parse? text with
      | none => .error (.invalidSignature name text)
      | some signature => .ok (.generic number signature)

structure Table where
  entries : List (String × Symbol)
  immutable : Bool
  deriving DecidableEq

namespace Table

def empty : Table := ⟨[], false⟩

def find? (t : Table) (name : String) : Option Symbol := t.entries.lookup name

def contains (t : Table) (name : String) : Bool := (t.find? name).isSome

def size (t : Table) : Nat := t.entries.length

/-- Whether some name stands for the function written in the language with number `n`. -/
def binds (t : Table) (n : Nat) : Bool :=
  t.entries.any fun e =>
    match e.2 with
    | .function (.composed m _) => m == n
    | _ => false

/-- Why a name cannot be added, if it cannot. -/
def refusal? (t : Table) (name : String) : Option SymbolError :=
  if t.immutable then some .immutable
  else if !isIdentifier name then some (.invalidName name)
  else if isReserved name then some (.reserved name)
  else if t.contains name then some (.alreadyExists name)
  else none

def insert (t : Table) (name : String) (s : Symbol) : Except SymbolError Table :=
  match t.refusal? name with
  | some e => .error e
  | none => .ok { t with entries := (name, s) :: t.entries }

def remove (t : Table) (name : String) : Except SymbolError Table :=
  if t.immutable then .error .immutable
  else if t.contains name then
    .ok { t with entries := Named.erase name t.entries }
  else .error (.notFound name)

/-- Registers one function. A name is refused before a signature. -/
def insertNative (t : Table) (name : String) (number : Nat) (f : Native) :
    Except SymbolError Table :=
  match t.refusal? name with
  | some e => .error e
  | none =>
      match f.callable name number with
      | .error e => .error e
      | .ok c => t.insert name (.function c)

/-- What the names of functions numbered from `number` on will stand for, in front of what was
staged before them; or why one of them cannot be added. -/
def stage (t : Table) (number : Nat) (staged : List (String × Symbol)) :
    List (String × Native) → Except SymbolError (List (String × Symbol))
  | [] => .ok staged
  | (name, f) :: rest =>
      match t.refusal? name with
      | some e => .error e
      | none =>
          if (staged.lookup name).isSome then .error (.alreadyExists name)
          else
            match f.callable name number with
            | .error e => .error e
            | .ok c => t.stage (number + 1) ((name, .function c) :: staged) rest

/-- Registers functions numbered from `number` on. They are staged before the first of them is
added, so one refusal refuses all. -/
def insertNatives (t : Table) (number : Nat) (functions : List (String × Native)) :
    Except SymbolError Table :=
  match t.stage number [] functions with
  | .error e => .error e
  | .ok staged => .ok { t with entries := staged ++ t.entries }

/-- The constants every table may be given at once. -/
def constants : List (String × Float) :=
  [("pi", Unary.pi), ("epsilon", 2.220446049250313e-16), ("inf", 1 / 0)]

/-- The names of variables in ascending order. -/
def variableNames (t : Table) : List String :=
  ((t.entries.filter fun e => e.2.isVariable).map Prod.fst).mergeSort fun a b => !(b < a)

end Table

end MathScript
