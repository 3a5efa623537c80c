import MathScript.Proofs.Beside
import MathScript.Proofs.Erase
import MathScript.Proofs.Shapes
import MathScript.Proofs.Steady
import MathScript.Proofs.Tracks

/-!
A diary of an evaluation. Beside the machine stands the code of the running body and what its
declarations have given to its slots, and a page with all of it is written after every step and
every node. Whatever a run whose log is fine touches, its pages tell that host vectors keep their
lengths, that slots keep the shape they were declared with, and that what may not be written is
not.
-/

namespace MathScript

/-! ### What stands in a tree -/

namespace Tree

def Binds (t : Tree) (b : Binding) : Prop := ∃ node ∈ t.nodes, b ∈ node.bindings

def Declares (t : Tree) (slot : Nat) (shape : Shape) : Prop :=
  ∃ node ∈ t.nodes, node.declaration? = some (slot, shape)

def Calls (t : Tree) (definition : Nat) : Prop := ∃ node ∈ t.nodes, definition ∈ node.calls

/-- Whatever name stands for the slot, it may not be written. -/
def ReadOnly (t : Tree) (slot : Nat) : Prop :=
  ∀ b, t.Binds b → (∃ kind, b.place = .slot slot kind) → b.writable = false

/-- No host variable may be written, and no function written in the language is called. -/
structure Closed (t : Tree) : Prop where
  hosts : ∀ b, t.Binds b → b.place.isHost = true → b.writable = false
  calls : ∀ n, ¬ t.Calls n

theorem every_iff {P : Tree → Prop} {t : Tree} : t.Every P ↔ ∀ node ∈ t.nodes, P node := by
  constructor
  · intro every
    induction every with
    | @node t own below ih =>
        intro node member
        rw [nodes_eq] at member
        rcases List.mem_cons.mp member with rfl | deeper
        · exact own
        · obtain ⟨child, inside, within⟩ := List.mem_flatMap.mp deeper
          exact ih child inside node within
  · intro all
    induction t using children_induction with
    | step t ih =>
        refine .node (all t t.mem_nodes_self) fun child inside => ?_
        refine ih child inside fun node within => all node ?_
        rw [nodes_eq]
        exact List.mem_cons_of_mem _ (List.mem_flatMap.mpr ⟨child, inside, within⟩)

/-- What the nodes of a tree are told of is what stands in the tree. -/
theorem every_own (t : Tree) : t.Every (Fits t.Binds t.Declares t.Calls) :=
  every_iff.mpr fun node member =>
    ⟨fun _ bound => ⟨node, member, bound⟩, fun _ declared => ⟨node, member, declared⟩,
      fun _ called => ⟨node, member, called⟩⟩

end Tree

/-! ### Pages -/

/-- The code of a running body, what was given to its slots, and the machine. -/
structure Page where
  code : Tree
  given : List (Nat × Value)
  machine : Machine

/-- The newest page comes first. -/
structure Diary where
  code : Tree
  given : List (Nat × Value)
  pages : List Page

namespace Diary

def write (m : Machine) (d : Diary) : Diary := { d with pages := ⟨d.code, d.given, m⟩ :: d.pages }

/-- A slot that is declared again is given another value. -/
def give (slot : Nat) (v : Value) (d : Diary) : Diary :=
  { d with given := (slot, v) :: d.given.filter fun g => g.1 ≠ slot }

def into (p : Program) (d : Diary) : Diary := { d with code := p.tree, given := [] }

def back (before d : Diary) : Diary := { before with pages := d.pages }

end Diary

namespace Beside

/-- A step with a page behind it, however it ends. -/
def paged {α : Type} (x : Eval α) : Flow (Beside Diary) α := fun s =>
  match x s.machine with
  | .ok a m => .ok a ⟨m, s.notes.write m⟩
  | .error e m => .error e ⟨m, s.notes.write m⟩

def paging (host : Host) : Acts (Beside Diary) :=
  Acts.through paged (fun b length index => paged (Eval.report host.check b length index)) host

def diary (host : Host) : Kernel (Beside Diary) where
  load b := paged (Eval.load b)
  element b x := paged (Eval.element host.check b x)
  slice b x y := paged (Eval.slice host.check b x y)
  size b := paged (Eval.size b)
  assign t op v := paged (Eval.assign host.check t op v)
  readTarget t := paged (Eval.readTarget host.check t)
  writeTarget t v := paged (Eval.writeTarget t v)
  declare slot _ v := do
    note fun _ => Diary.give slot v
    paged (modify fun m => m.declare slot v)
  numeric native vs := paged (Eval.callNumeric host native vs)
  generic native overload writeback _ vs := (paging host).callGeneric native overload writeback vs
  enter p := enter (Diary.into p) Diary.back p
  applied _ _ _ := pure ()
  finished _ _ := note Diary.write

/-! ### The diary of a run -/

theorem agree_paged {α : Type} (x : Eval α) : Agree (fun m s => s.machine = m) x (paged x) := by
  rintro _ s rfl
  unfold paged
  cases x s.machine <;> exact ⟨rfl, rfl⟩

theorem paging_inStep (host : Host) :
    (Acts.machine host).InStep (paging host)
      (fun {α} (x : Eval α) y => Agree (fun m s => s.machine = m) x y) (fun _ => True)
      fun _ => True := by
  rw [← Acts.through_id]
  exact Acts.through_inStep host (fun x _ => agree_paged x) fun _ _ _ => agree_paged _

theorem diary_inStep (host : Host) :
    (Machine.kernel host).InStep (diary host)
      (fun {α} (x : Eval α) y => Agree (fun m s => s.machine = m) x y) (fun _ => True)
      fun _ _ => True where
  load b _ := agree_paged _
  element b x _ := agree_paged _
  slice b x y _ := agree_paged _
  size b _ := agree_paged _
  assign t op v _ := agree_paged _
  readTarget t _ := agree_paged _
  writeTarget t v _ := agree_paged _
  declare slot shape v _ _ := by
    rintro _ s rfl
    exact ⟨rfl, rfl⟩
  numeric native vs := agree_paged _
  generic native overload writeback args vs _ := by
    rw [Machine.kernel, ← Acts.Machine.callGeneric_machine]
    exact (paging_inStep host).callGeneric (agree_lockstep _).toStepwise (fun _ _ => trivial)
      native overload vs
  applied _ _ _ := agree_pure ()
  finished t v := by
    rintro _ s rfl
    exact ⟨rfl, rfl⟩

end Beside

/-- An evaluation from the top, with a diary. -/
def Host.diary (host : Host) (program : Program) (store : Store) :
    EStateM.Result Signal (Beside Diary) Value :=
  (Beside.diary host).run host program ⟨start program store, ⟨program.tree, [], []⟩⟩

/-- The pages written in an evaluation, the newest first. -/
def Host.pages (host : Host) (program : Program) (store : Store) : List Page :=
  (lastState (host.diary program store)).notes.pages

/-- Whoever writes a diary does not change the evaluation. -/
theorem Host.diary_erases (host : Host) (program : Program) (store : Store) :
    SameEnd (fun m (s : Beside Diary) => s.machine = m)
      ((Machine.kernel host).run host program (start program store))
      (host.diary program store) := by
  apply (Beside.diary_inStep host).runs (agree_lockstep _)
  · exact .inl rfl
  · exact fun _ => rfl
  · exact fun p args x y same => Beside.agree_enter _ _ p args same
  · exact Nat.le_refl _
  · intro name y equal
    rw [equal rfl]
    exact agree_throw _
  · rfl

theorem Host.run_diary (host : Host) (program : Program) (store : Store) :
    host.run program store =
      ⟨outcomeOf (host.diary program store),
        (lastState (host.diary program store)).machine.store,
        (lastState (host.diary program store)).machine.reports.toList⟩ :=
  run_beside (host.diary_erases program store)

end MathScript
