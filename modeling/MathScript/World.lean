import MathScript.Composition
import MathScript.Evaluate

/-!
What a host owns: storage, native functions, functions written in the language, and its tables
with a compositor for each. A change may be refused; what it did until then stays. A name that
was never used stands for an empty table and for a compositor with default settings.
-/

namespace MathScript

structure World where
  store : Store
  natives : Array Registered
  functions : Array Composed
  tables : List (String × Table)
  compositors : List (String × Compositor)

abbrev Change := EStateM SymbolError World

namespace World

def empty : World := ⟨Store.empty, #[], #[], [], []⟩

def table (w : World) (name : String) : Table := (w.tables.lookup name).getD Table.empty

def withTable (w : World) (name : String) (t : Table) : World :=
  { w with tables := Named.put name t w.tables }

def compositor (w : World) (name : String) : Compositor :=
  (w.compositors.lookup name).getD (.withSettings {})

def withCompositor (w : World) (name : String) (c : Compositor) : World :=
  { w with compositors := Named.put name c w.compositors }

/-! ### Reading -/

/-- What a variable holds; none for a constant or a function. -/
def valueOf (w : World) : Symbol → Option Value
  | .scalar c => some (.scalar (w.store.scalar c))
  | .vector c => some (.vector (w.store.vector c))
  | .string c => some (.string (w.store.string c))
  | .constant _ | .function _ => none

def value? (w : World) (table name : String) : Option Value :=
  ((w.table table).find? name).bind w.valueOf

/-- The variables of a table with their values. -/
def valuesIn (w : World) (table : String) : List (String × Value) :=
  (w.table table).entries.filterMap fun (name, s) => (w.valueOf s).map fun v => (name, v)

/-- Whether two names are bound to one cell; none unless both are variables of one kind. -/
def shared? (w : World) (table left right : String) : Option Bool :=
  match (w.table table).find? left, (w.table table).find? right with
  | some (.scalar a), some (.scalar b) => some (a = b)
  | some (.vector a), some (.vector b) => some (a = b)
  | some (.string a), some (.string b) => some (a = b)
  | _, _ => none

/-- The function that a table's compositor knows by a name. -/
def composed? (w : World) (table name : String) : Option Composed :=
  ((w.compositor table).find? name).bind fun n => w.functions[n]?

/-! ### Functions that can still be called -/

/-- Whether some table binds function `n`, or some compositor knows it. -/
def isLive (w : World) (n : Nat) : Bool :=
  w.tables.any (fun e => e.2.binds n) || w.compositors.any (fun e => e.2.knows n)

/-- The programs of the functions, by number; none for those that are gone. -/
def bodies (w : World) : Array (Option Program) :=
  w.functions.mapIdx fun n f => if w.isLive n then some f.program else none

/-! ### Changing symbols -/

def insert (table name : String) (s : Symbol) : Change Unit := fun w =>
  match (w.table table).insert name s with
  | .ok t => .ok () (w.withTable table t)
  | .error e => .error e w

def addScalar (table name : String) (x : Float) : Change Unit := do
  let cell ← modifyGet fun w =>
    let (store, cell) := w.store.newScalar x
    (cell, { w with store := store })
  insert table name (.scalar cell)

def addVector (table name : String) (xs : Array Float) : Change Unit := do
  let cell ← modifyGet fun w =>
    let (store, cell) := w.store.newVector xs
    (cell, { w with store := store })
  insert table name (.vector cell)

def addString (table name : String) (s : String) : Change Unit := do
  let cell ← modifyGet fun w =>
    let (store, cell) := w.store.newString s
    (cell, { w with store := store })
  insert table name (.string cell)

def addConstant (table name : String) (x : Float) : Change Unit :=
  insert table name (.constant x)

/-- The first refusal ends it; constants added before that stay. -/
def addConstants (table : String) : Change Unit :=
  Table.constants.forM fun (name, x) => addConstant table name x

/-- Binds the cell of a variable to one more name; false if there is no such variable. -/
def share (table name source old : String) : Change Bool := do
  match ((← get).table source).find? old with
  | some s =>
      if s.isVariable then
        insert table name s
        return true
      else return false
  | none => return false

/-- A native function with a fresh memory. -/
def addMemory (w : World) (f : Native) : World :=
  let (store, memory) := w.store.newMemory
  { w with store := store, natives := w.natives.push ⟨f, memory⟩ }

/-- Registers functions together, all of them or none. -/
def addNatives (table : String) (functions : List (String × Native)) : Change Unit := fun w =>
  match (w.table table).insertNatives w.natives.size functions with
  | .ok t => .ok () (((functions.map Prod.snd).foldl addMemory w).withTable table t)
  | .error e => .error e w

def remove (table name : String) : Change Unit := fun w =>
  match (w.table table).remove name with
  | .ok t => .ok () (w.withTable table t)
  | .error e => .error e w

def freeze (w : World) (table : String) : World :=
  w.withTable table { w.table table with immutable := true }

/-- What the host writes into a variable; nothing happens unless the kinds agree. -/
def write (w : World) (table name : String) (v : Value) : World :=
  match (w.table table).find? name, v with
  | some (.scalar c), .scalar x => { w with store := w.store.setScalar c x }
  | some (.vector c), .vector xs => { w with store := w.store.modifyVector c fun _ => xs }
  | some (.string c), .string s => { w with store := w.store.modifyString c fun _ => s }
  | _, _ => w

/-! ### Composing functions -/

/-- Adds a group of functions with the compositor of a table. -/
def define (table : String) (group : List Definition) : EStateM Failure World Unit := fun w =>
  match (w.compositor table).add w.functions group (w.table table) with
  | .error e t => .error e (w.withTable table t)
  | .ok (c, functions) t =>
      .ok () ({ w with functions := functions }.withTable table t |>.withCompositor table c)

def undefine (table name : String) : Change Unit := fun w =>
  match (w.compositor table).remove (w.table table) name with
  | (.ok t, c) => .ok () ((w.withTable table t).withCompositor table c)
  | (.error e, c) => .error e (w.withCompositor table c)

def undefineAll (w : World) (table : String) : World :=
  let (t, c) := (w.compositor table).clear (w.table table)
  (w.withTable table t).withCompositor table c

/-- A new compositor for a table. What the old one registered stays in the table. -/
def recompose (w : World) (table : String) (settings : Settings) : World :=
  w.withCompositor table (.withSettings settings)

end World

end MathScript
