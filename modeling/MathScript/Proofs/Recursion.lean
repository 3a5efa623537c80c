import MathScript.Stock
import MathScript.VectorOps
import MathScript.Proofs.Beside

/-!
The recursion limit. Calls of functions written in the language are counted beside the machine:
each one is noted with the functions that are running then, and with whether it was refused. The
limit does nothing but refuse: a run that is not refused under it goes the same way under a
higher one, and a run that is refused has come to a call with as many functions running as the
limit allows. A generic function or a check of the host can hand out any fault, this one
included; it is not a call that is to blame then.
-/

namespace MathScript

/-- A call of a function written in the language, with the names of the functions whose bodies
are running, the innermost first. -/
structure Attempt where
  name : String
  active : List String
  refused : Bool
  deriving DecidableEq

/-- The bodies that are running, and the calls so far, the newest first. -/
structure Census where
  active : List String
  calls : List Attempt

namespace Census

def attempt (name : String) (refused : Bool) (c : Census) : Census :=
  { c with calls := ⟨name, c.active, refused⟩ :: c.calls }

def push (name : String) (c : Census) : Census := { c with active := name :: c.active }

def pop (c : Census) : Census := { c with active := c.active.tail }

end Census

/-- A call is refused at the limit and nowhere else. -/
def Attempt.Within (limit : Nat) (a : Attempt) : Prop :=
  if a.refused then a.active.length = limit else a.active.length < limit

namespace Host

variable (host : Host)

/-- A machine with calls counted beside it acts as the machine. -/
def counterActs : Acts (Beside Census) :=
  .through Beside.lift
    (fun b length index => Beside.lift (Eval.report host.check b length index)) host

def counter : Kernel (Beside Census) := host.counterActs.kernel (Beside.enter id fun _ c => c)

/-- Invocation with `depth` calls to go, counted. -/
def counting : Nat → Kernel.Invoking (Beside Census)
  | 0, name, _, _ => do
      Beside.note fun _ c => c.attempt name true
      throw (.fault (.recursionLimit name host.limit))
  | depth + 1, name, program, args => do
      Beside.note fun _ c => c.attempt name false
      Beside.enter (Census.push name) (fun _ c => c.pop) program args
        (program.tree.walk host.counter host (counting depth))

/-- An evaluation from the top, with calls counted. -/
def count (program : Program) (store : Store) : EStateM.Result Signal (Beside Census) Value :=
  program.tree.walk host.counter host (host.counting host.limit) ⟨start program store, ⟨[], []⟩⟩

/-- The calls of an evaluation, the newest first. -/
def calls (program : Program) (store : Store) : List Attempt :=
  (lastState (host.count program store)).notes.calls

end Host

/-! ### Counting changes nothing -/

namespace Beside

end Beside

namespace Host

variable (host : Host)

end Host

/-! ### Who is to blame -/

namespace Beside

variable (host : Host) {active : List String}

end Beside

/-! ### A higher limit -/

namespace Host

variable (host : Host) (p : Program) (store : Store)

end Host

/-- A function that never answers with a recursion fault of its own making. -/
def Native.Fair (n : Native) : Prop :=
  ∀ signature run, n = .generic signature run → ∀ kept overload params f limit,
    (run kept overload params).result ≠ .error (.recursionLimit f limit)

theorem Stock.generic_fair (name signature behaviour : String) :
    (generic name signature behaviour).Fair := by
  rintro _ _ ⟨⟩ kept overload params f limit
  unfold Generic.run
  cases Generic.ofName behaviour <;> simp

theorem VectorOps.entry_fair (name signature : String) (run : Nat → List Param → Answer) :
    (entry name signature run).2.Fair := by
  rintro _ _ ⟨⟩ kept overload params f limit
  dsimp only
  cases run overload params <;> simp

/-- With fair functions, and no check or one that ends evaluations at accesses, a recursion fault
is always that of a call. -/
theorem Host.fair_keeps (host : Host) (functions : ∀ r ∈ host.natives, r.native.Fair)
    (judges : ∀ c, host.check = some c → ∀ kept access f limit,
      (c.judge kept access).1 ≠ some (.recursionLimit f limit))
    (f : String) (limit : Nat) : ¬ host.HandsOut (.recursionLimit f limit) := by
  rintro (⟨r, ⟨native, overload, kept, params, signature, run, memory, found, rfl⟩, refused⟩ |
    ⟨c, found, kept, access, refused⟩)
  · exact functions _ (Array.mem_of_getElem? found) signature run rfl _ _ _ _ _ refused
  · exact judges c found _ _ _ _ refused

end MathScript
