import MathScript.Compile
import MathScript.Failure
import MathScript.Named

/-!
Functions written in the language itself. A compositor compiles their bodies, registers them
in a table and remembers which ones it registered. A group of definitions is declared before
its first body is compiled, so its members may call one another, and a group that fails
anywhere is not registered at all.
-/

namespace MathScript

/-- A function as it is written down. -/
structure Definition where
  name : String
  params : List String
  body : String
  deriving DecidableEq

namespace Definition

/-- Why a parameter list cannot be used, if it cannot: its first faulty member tells. -/
def refusedParams (before : List String) : List String → Option SymbolError
  | [] => none
  | param :: params =>
      if !isIdentifier param then some (.invalidName param)
      else if isReserved param then some (.reserved param)
      else if before.contains param then some (.alreadyExists param)
      else refusedParams (param :: before) params

def refusal? (d : Definition) : Option SymbolError := refusedParams [] d.params

end Definition

structure Composed where
  name : String
  params : List String
  program : Program

namespace Composed

def arity (f : Composed) : Nat := f.params.length

/-- The head of a function: its name and parameters. -/
def display (f : Composed) : String := f.name ++ "(" ++ ", ".intercalate f.params ++ ")"

end Composed

structure Compositor where
  settings : Settings
  known : List (String × Nat)

namespace Compositor

def withSettings (settings : Settings) : Compositor := ⟨settings, []⟩

def find? (c : Compositor) (name : String) : Option Nat := c.known.lookup name

def knows (c : Compositor) (n : Nat) : Bool := c.known.any fun e => e.2 == n

/-- Takes a name out of a table that lets it go. -/
def release (table : Table) (name : String) : Table := (table.remove name).toOption.getD table

/-- Takes the names of definitions out of a table. -/
def unregister (table : Table) (declared : List Definition) : Table :=
  (declared.map Definition.name).foldl release table

/-- Binds the names of a group to the functions numbered from `number` on. When one of them is
refused, those declared before it are taken out again. -/
def declare (number : Nat) (declared : List Definition) :
    List Definition → EStateM SymbolError Table Unit
  | [] => pure ()
  | d :: group => fun table =>
      match table.insert d.name (.function (.composed number d.params.length)) with
      | .error e => .error e (unregister table declared)
      | .ok table => declare (number + 1) (declared ++ [d]) group table

/-- The compiled functions of a group, or the diagnostics of its first faulty body. -/
def compileAll (table : Table) (settings : Settings) :
    List Definition → Except (List Diagnostic) (List Composed)
  | [] => .ok []
  | d :: group =>
      match compile table settings d.params d.body with
      | .error diagnostics => .error diagnostics
      | .ok program =>
          match compileAll table settings group with
          | .error diagnostics => .error diagnostics
          | .ok functions => .ok (⟨d.name, d.params, program⟩ :: functions)

def remember (known : List (String × Nat)) (number : Nat) :
    List Definition → List (String × Nat)
  | [] => known
  | d :: group => remember (Named.put d.name number known) (number + 1) group

/-- Registers a group: the compositor that knows it, and the functions composed so far with
those of the group behind them. The names are in the table before the first body is compiled;
a body that does not compile takes all of them out again. -/
def add (c : Compositor) (functions : Array Composed) (group : List Definition) :
    EStateM Failure Table (Compositor × Array Composed) := fun table =>
  match group.findSome? Definition.refusal? with
  | some e => .error (.symbol e) table
  | none =>
      match declare functions.size [] group table with
      | .error e table => .error (.symbol e) table
      | .ok () table =>
          match compileAll table c.settings group with
          | .error diagnostics => .error (.compilation diagnostics) (unregister table group)
          | .ok compiled =>
              .ok ({ c with known := remember c.known functions.size group },
                functions ++ compiled.toArray) table

/-- Forgets a function and takes its name out of the table. It is forgotten even when the
table keeps the name. -/
def remove (c : Compositor) (table : Table) (name : String) :
    Except SymbolError Table × Compositor :=
  match c.find? name with
  | none => (.error (.notFound name), c)
  | some _ => (table.remove name, { c with known := Named.erase name c.known })

def clear (c : Compositor) (table : Table) : Table × Compositor :=
  ((c.known.map Prod.fst).foldl release table, { c with known := [] })

end Compositor

end MathScript
