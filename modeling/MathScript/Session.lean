import MathScript.Footprint
import MathScript.World

/-!
Sessions: a world, the settings and the check that compilations use, the diagnostics of the last
compilation, and named expressions. An expression is bound to one table; it keeps its last program,
with the check and the call depth limit of that compilation, until it is compiled again with success
or released.
-/

namespace MathScript

/-- How a check deals with accesses outside of a vector. -/
inductive Mode where
  | log
  | abort
  | budget (limit : Nat)
  deriving DecidableEq

def Mode.judge : Mode → Judge
  | .log => Judge.log
  | .abort => Judge.abort
  | .budget limit => Judge.budget limit

/-- A check in use, with the memory it counts in. -/
structure Watch where
  mode : Mode
  memory : Memory
  deriving DecidableEq

def Watch.check (w : Watch) : Check := ⟨w.mode.judge, w.memory⟩

structure Expression where
  table : String
  program? : Option Program
  watch : Option Watch
  limit : Nat
  results : Option (List Value)

namespace Expression

def unbound (table : String) : Expression := ⟨table, none, none, Settings.maxCallDepth {}, none⟩

def isCompiled (e : Expression) : Bool := e.program?.isSome

/-- The expression with a new program; results of the old one are dropped. -/
def install (e : Expression) (program : Program) (watch : Option Watch) (limit : Nat) :
    Expression :=
  ⟨e.table, some program, watch, limit, none⟩

def release (e : Expression) : Expression := { e with program? := none, results := none }

def variableNames (e : Expression) : List String :=
  (e.program?.map fun p => p.tree.variableNames).getD []

/-- No loop comes near this number of rounds. -/
def rounds : Nat := Nat.pow 2 60

def host (e : Expression) (w : World) : Host :=
  let bodies := w.bodies
  { natives := w.natives
    body? := fun n => bodies[n]?.join
    check := e.watch.map Watch.check
    limit := e.limit
    rounds := rounds }

/-- An expression that is not compiled evaluates to null. -/
def evaluate (e : Expression) (w : World) : Host.Report :=
  match e.program? with
  | some program => (e.host w).run program w.store
  | none => ⟨.finished .null none, w.store, []⟩

end Expression

/-- Compiles a text with default settings and evaluates it once. -/
def evaluateOnce (w : World) (table text : String) : Except Failure Float :=
  match compile (w.table table) {} [] text with
  | .error diagnostics => .error (.compilation diagnostics)
  | .ok program =>
      match (((Expression.unbound table).install program none
          (Settings.maxCallDepth {})).evaluate w).outcome with
      | .finished v _ => .ok v.asScalar
      | .faulted f => .error (.evaluation f)
      | .tired => .ok notNumber

structure Session where
  world : World
  settings : Settings
  watch : Option Watch
  diagnostics : List Diagnostic
  expressions : List (String × Expression)

namespace Session

def start (settings : Settings) : Session := ⟨World.empty, settings, none, [], []⟩

/-- An expression that was never used belongs to `table`. -/
def expression (s : Session) (name table : String) : Expression :=
  (s.expressions.lookup name).getD (.unbound table)

def withExpression (s : Session) (name : String) (e : Expression) : Session :=
  { s with expressions := Named.put name e s.expressions }

/-- New settings for the compilations to come, without a check and without diagnostics. -/
def restart (s : Session) (settings : Settings) : Session :=
  { s with settings := settings, watch := none, diagnostics := [] }

/-- A check for the compilations to come. Its count starts anew. -/
def watchWith (s : Session) (mode : Option Mode) : Session :=
  match mode with
  | none => { s with watch := none }
  | some mode =>
      let (store, memory) := s.world.store.newMemory
      { s with world := { s.world with store := store }, watch := some ⟨mode, memory⟩ }

/-- Compiles a text into an expression. A failure leaves the expression as it was, and its
diagnostics behind; a success leaves none. -/
def compile (s : Session) (name table text : String) : Bool × Session :=
  let e := s.expression name table
  match MathScript.compile (s.world.table e.table) s.settings [] text with
  | .error diagnostics => (false, { s with diagnostics := diagnostics }.withExpression name e)
  | .ok program =>
      let e := e.install program s.watch s.settings.maxCallDepth
      (true, { s with diagnostics := [] }.withExpression name e)

/-- The diagnostics of the last compilation, in the order they were recorded. -/
def errors (s : Session) : List Diagnostic := s.diagnostics

def errorCount (s : Session) : Nat := s.diagnostics.length

def getError? (s : Session) (index : Nat) : Option Diagnostic := s.diagnostics[index]?

/-- The last compilation in one line if it failed; empty if it succeeded. -/
def error (s : Session) : String :=
  match s.diagnostics with
  | [] => ""
  | diagnostics => Diagnostic.summary diagnostics

/-- Evaluates an expression. Storage keeps what was written until the end, even a fault; the
results are those of this evaluation. -/
def run (s : Session) (name table : String) : Host.Report × Session :=
  let e := s.expression name table
  let report := e.evaluate s.world
  let results := match report.outcome with
    | .finished _ results => results
    | _ => none
  (report, { s with world := { s.world with store := report.store } }.withExpression name
    { e with results := results })

def release (s : Session) (name table : String) : Session :=
  s.withExpression name (s.expression name table).release

/-- The accesses of an evaluation that its check keeps a record of. -/
def recorded (e : Expression) (report : Host.Report) : List Access :=
  match e.watch with
  | some ⟨.log, _⟩ | some ⟨.budget _, _⟩ => report.accesses
  | _ => []

end Session

end MathScript
