import MathScript.Proofs.Diary
import MathScript.Proofs.Locals

/-!
What the pages of a diary tell. A moment is fine if what it touches is in place and what it
writes may be written. As long as the log of an evaluation is fine, every page keeps what is
claimed of it: one lemma for each step over the machine's own account of what it writes, then
walks and calls in lockstep with the recorded evaluation.
-/

namespace MathScript

open Machine Tree

theorem Machine.slot_form (m : Machine) (i : Nat) :
    (m.slot i).form = (m.formAt i).getD Value.null.form := by
  rw [slot, formAt, Array.getD_eq_getD_getElem?]
  cases m.locals[i]? <;> rfl

/-- A place of the host does not depend on the frame. -/
theorem Machine.read_host {m : Machine} {p : Place} (host : p.isHost = true)
    (locals : Array Value) : read { m with locals := locals } p = m.read p := by
  cases p <;> first | rfl | cases host

theorem Shape.Holds.of_form {shape : Shape} {v w : Value} (holds : shape.Holds v)
    (same : w.form = v.form) : shape.Holds w := by
  cases shape <;> cases v <;> cases w <;>
    simp_all [Shape.Holds, Value.form, Value.kind?, Value.asVector]

/-- What is claimed of a page in an evaluation from `first`. Where it is closed no place of the
host has changed. -/
structure Page.Kept (closed : Prop) (first : Machine) (page : Page) : Prop where
  lengths : ∀ c, (page.machine.store.vector c).size = (first.store.vector c).size
  shapes : ∀ g ∈ page.given, ∃ shape, page.code.Declares g.1 shape ∧ shape.Holds g.2 ∧
    shape.Holds (page.machine.slot g.1)
  fixed : ∀ g ∈ page.given, page.code.ReadOnly g.1 → page.machine.slot g.1 = g.2
  hosts : closed → ∀ p, p.isHost = true → page.machine.read p = first.read p

namespace Page.Kept

variable {closed : Prop} {first m m' : Machine} {code : Tree} {given : List (Nat × Value)}
  {written : Place → Prop}

/-- A step that writes nothing but what names of the code stand for that may be written. -/
theorem still (kept : Page.Kept closed first ⟨code, given, m⟩) (shut : closed → code.Closed)
    (still : Still written m m')
    (allowed : ∀ p, written p → ∃ b, code.Binds b ∧ b.writable = true ∧ b.place.Shares p) :
    Page.Kept closed first ⟨code, given, m'⟩ where
  lengths c := (still.lengths c).trans (kept.lengths c)
  shapes g member := by
    obtain ⟨shape, declared, had, holds⟩ := kept.shapes g member
    refine ⟨shape, declared, had, holds.of_form ?_⟩
    rw [slot_form, slot_form, still.forms]
  fixed g member readOnly := by
    refine Eq.trans ?_ (kept.fixed g member readOnly)
    apply still.places (.slot g.1 .scalar)
    intro inside
    obtain ⟨b, bound, writable, shares⟩ := allowed _ inside
    exact absurd writable (by simp [readOnly b bound shares.slot])
  hosts isClosed p host := by
    refine (still.places p fun inside => ?_).trans (kept.hosts isClosed p host)
    obtain ⟨b, bound, writable, shares⟩ := allowed p inside
    obtain rfl := shares.host host
    exact absurd writable (by simp [(shut isClosed).hosts b bound host])

/-- A declaration gives a slot of the frame a value of the declared shape. -/
theorem give (kept : Page.Kept closed first ⟨code, given, m⟩) {slot : Nat} {shape : Shape}
    {v : Value} (declared : code.Declares slot shape) (holds : shape.Holds v)
    (room : slot < m.locals.size) :
    Page.Kept closed first
      ⟨code, (slot, v) :: given.filter fun g => g.1 ≠ slot, m.declare slot v⟩ := by
  have own : (m.declare slot v).slot slot = v := by
    simp [Machine.slot, Machine.declare, Array.getD_eq_getD_getElem?, room]
  have other : ∀ g ∈ given.filter fun g => g.1 ≠ slot,
      g ∈ given ∧ (m.declare slot v).slot g.1 = m.slot g.1 := by
    intro g member
    obtain ⟨inside, apart⟩ := List.mem_filter.mp member
    have apart : slot ≠ g.1 := fun same => by simp [same] at apart
    exact ⟨inside, by simp [Machine.slot, Machine.declare, Array.getD_eq_getD_getElem?, apart]⟩
  constructor
  · exact kept.lengths
  · intro g member
    rcases List.mem_cons.mp member with rfl | old
    · exact ⟨shape, declared, holds, own.symm ▸ holds⟩
    · obtain ⟨inside, same⟩ := other g old
      obtain ⟨shape', declared', had, holds'⟩ := kept.shapes g inside
      exact ⟨shape', declared', had, same.symm ▸ holds'⟩
  · intro g member readOnly
    rcases List.mem_cons.mp member with rfl | old
    · exact own
    · obtain ⟨inside, same⟩ := other g old
      exact same.trans (kept.fixed g inside readOnly)
  · exact fun isClosed p host => (read_host host _).trans (kept.hosts isClosed p host)

/-- Another frame, where nothing is given yet. -/
theorem enter (kept : Page.Kept closed first ⟨code, given, m⟩) (code' : Tree)
    (locals : Array Value) :
    Page.Kept closed first ⟨code', [], { m with locals := locals }⟩ where
  lengths := kept.lengths
  shapes := by simp
  fixed := by simp
  hosts isClosed p host := (read_host host _).trans (kept.hosts isClosed p host)

/-- The frame of one page with the store of another. -/
theorem reframe (kept : Page.Kept closed first ⟨code, given, m⟩) {code' : Tree}
    {given' : List (Nat × Value)} (before : Page.Kept closed first ⟨code', given', m'⟩) :
    Page.Kept closed first ⟨code', given', { m with locals := m'.locals }⟩ where
  lengths := kept.lengths
  shapes := before.shapes
  fixed := before.fixed
  hosts isClosed p host := (read_host host _).trans (kept.hosts isClosed p host)

end Page.Kept

/-! ### Steps -/

theorem Eval.stays_answer {written : Place → Prop} {m : Machine} (host : Host)
    (native overload : Nat) (args : List Value) :
    Stays written (Acts.answer host native overload args) m fun _ => True := by
  refine stays_bind (stays_ask host native overload args) fun reply m' _ _ => ?_
  match reply with
  | none => exact stays_pure trivial
  | some ⟨.ok x, params, _⟩ => exact stays_pure trivial
  | some ⟨.error f, _, _⟩ => exact ends_throw (Machine.Still.refl m')

/-- In place, and written only if it may be written. -/
def Moment.Fine (m : Moment) : Prop := m.InPlace ∧ m.Licensed

theorem Machine.has_of_fine {b : Binding} {use : Kind} {writes : Bool} {m : Machine} {frame : Frame}
    (fine : Moment.Fine ⟨.touch b use writes, m.locals, frame⟩) : m.Has b := by
  unfold Machine.Has
  have held := fine.1.2
  cases place_eq : b.place with
  | slot i kind =>
      simp only [place_eq] at held
      obtain ⟨-, -, v, found, kind_eq⟩ := held
      simp [Machine.kindAt, found, kind_eq]
  | scalar | constant | vector | string => trivial

namespace Beside

open Tape

/-- A diary kept beside `m` while `code` runs. -/
structure Tells (trees : Tree → Prop) (closed : Prop) (first : Machine) (code : Tree)
    (m : Machine) (s : Beside Diary) : Prop where
  machine : s.machine = m
  running : s.notes.code = code
  now : Page.Kept closed first ⟨code, s.notes.given, m⟩
  pages : ∀ page ∈ s.notes.pages, trees page.code ∧ page.Kept closed first

variable {trees : Tree → Prop} {closed : Prop} {first m m' : Machine} {code : Tree}
  {s : Beside Diary} {written : Place → Prop} {α : Type}

/-- One more page. -/
theorem Tells.write (tells : Tells trees closed first code m s) (known : trees code)
    (now : Page.Kept closed first ⟨code, s.notes.given, m'⟩) :
    Tells trees closed first code m' ⟨m', s.notes.write m'⟩ := by
  obtain ⟨n, ⟨_, given, pages⟩⟩ := s
  obtain ⟨-, rfl, -, kept⟩ := tells
  exact ⟨rfl, rfl, now, List.forall_mem_cons.mpr ⟨⟨known, now⟩, kept⟩⟩

/-- A page with nothing new on it. -/
theorem Tells.again (tells : Tells trees closed first code m s) (known : trees code) :
    Tells trees closed first code m { s with notes := s.notes.write s.machine } := by
  obtain rfl := tells.machine
  exact tells.write known tells.now

section

variable (known : trees code) (shut : closed → code.Closed)

include known shut

/-- A step that is paged, told what it writes. -/
theorem sameEnd_paged {x : Eval α} {value : α → Prop} (tells : Tells trees closed first code m s)
    (stays : Stays written x m value)
    (allowed : ∀ p, written p → ∃ b, code.Binds b ∧ b.writable = true ∧ b.place.Shares p) :
    SameEnd (Tells trees closed first code) (x m) (paged x s) := by
  obtain rfl := tells.machine
  unfold Stays Ends at stays
  unfold paged
  cases end_eq : x s.machine with
  | ok a m' =>
      rw [end_eq] at stays
      exact ⟨rfl, tells.write known (tells.now.still shut stays.1 allowed)⟩
  | error e m' =>
      rw [end_eq] at stays
      exact ⟨rfl, tells.write known (tells.now.still shut stays allowed)⟩

theorem agree_untouching {x : Eval α} {value : α → Prop}
    (stays : ∀ m, Stays (fun _ => False) x m value) :
    Agree (Tells trees closed first code) x (paged x) :=
  fun m _ tells => sameEnd_paged known shut tells (stays m) fun _ => False.elim

/-- A step on a name of the code that is fine: a name that is written may be written. -/
theorem tracks_paged {b : Binding} {use : Kind} {writes : Bool} {x : Eval α} {value : α → Prop}
    (bound : code.Binds b)
    (stays : ∀ m : Machine, m.Has b → use = b.kind →
      Stays (fun p => writes = true ∧ b.place.Shares p) x m value) :
    Tracks (Over (Tells trees closed first code)) (Lost Moment.Fine) (touching b use writes x)
      (paged x) := by
  refine tracks_touching fun m s frame tells fine => ?_
  have has := has_of_fine fine
  obtain ⟨placed, licensed⟩ := fine
  exact sameEnd_paged known shut tells (stays m has placed.1)
    fun p inside => ⟨b, bound, licensed inside.1, inside.2⟩

theorem tracks_declare {slot : Nat} {shape : Shape} {v : Value}
    (declared : code.Declares slot shape) (holds : shape.Holds v) :
    Tracks (Over (Tells trees closed first code)) (Lost Moment.Fine)
      (Tape.declare slot shape.kind v) (do
        note fun _ => Diary.give slot v
        paged (modify fun m => m.declare slot v)) := by
  refine tracks_note ?_ fun t s tells fine => .inl ?_
  · exact keeps_bind (Tape.keeps_lift _) fun _ _ lost => ends_modify lost
  · obtain ⟨_, ⟨_, given, pages⟩⟩ := s
    obtain ⟨rfl, rfl, now, kept⟩ := tells
    have given' := now.give declared holds fine.1.2
    exact ⟨rfl, rfl, rfl, given', List.forall_mem_cons.mpr ⟨⟨known, given'⟩, kept⟩⟩

theorem tracks_generic (host : Host) (native overload : Nat) {writeback : List (Option Binding)}
    (args : List Tree) (values : List Value) (bound : ∀ b ∈ writeback.filterMap id, code.Binds b) :
    Tracks (Over (Tells trees closed first code)) (Lost Moment.Fine)
      (callGeneric host native overload writeback args values)
      ((paging host).callGeneric native overload writeback values) := by
  apply tracks_callGeneric
  · exact agree_untouching known shut fun m => Eval.stays_answer host native overload values
  · intro b member p same
    have paged_eq : (paging host).writeParam b p =
        paged (modify (Eval.writeBack [p] [some b])) := by
      rw [← Acts.Machine.writeParam_machine host]
      cases kind_eq : b.kind <;> cases p <;> first
        | simp only [Acts.writeParam, kind_eq]; rfl
        | exact absurd (kind_eq ▸ same) (by simp [Param.kind])
    rw [paged_eq]
    exact tracks_paged known shut (bound b member) fun m has _ =>
      (Eval.stays_writeBack has same).writing fun _ shares => ⟨rfl, shares⟩

/-- Over names and declarations of the code that runs, a diary is told by every step. -/
theorem kernel_tells (host : Host) :
    (Tape.kernel host).InStep (diary host)
      (fun {α} (x : Flow Tape α) y =>
        Tracks (Over (Tells trees closed first code)) (Lost Moment.Fine) x y)
      code.Binds code.Declares where
  load b bound := tracks_paged known shut bound fun m has _ => Eval.stays_load has
  element b x bound := tracks_paged known shut bound fun m _ _ => Eval.stays_element host.check b x
  slice b x y bound := tracks_paged known shut bound fun m _ _ => Eval.stays_slice host.check b x y
  size b bound := tracks_paged known shut bound fun m _ _ => Eval.stays_size b
  assign t op v bound := tracks_paged known shut bound fun m has same =>
    (Eval.stays_assign host.check has op v).writing fun _ shares => ⟨rfl, shares⟩
  readTarget t bound := tracks_paged known shut bound fun m has _ =>
    Eval.stays_readTarget host.check has
  writeTarget t v bound := tracks_paged known shut bound fun m has same =>
    (Eval.stays_writeTarget has fun b whole => by
      subst whole
      exact same).writing fun _ shares => ⟨rfl, shares⟩
  declare slot shape v declared holds := tracks_declare known shut declared holds
  numeric native vs := tracks_lift
    (agree_untouching known shut fun m => Eval.stays_callNumeric host native vs)
  generic native overload writeback args vs bound :=
    tracks_generic known shut host native overload args vs bound
  applied op args vs := tracks_note (keeps_pure ()) fun t s tells _ => .inl ⟨rfl, tells⟩
  finished t v := tracks_note (keeps_pure ()) fun t s tells _ => .inl ⟨rfl, tells.again known⟩

end

/-! ### Calls and runs -/

theorem tells_enter (tells : Tells trees closed first code m s) (p : Program)
    (args : List Float) :
    Tells trees closed first p.tree { m with locals := Host.frame p args }
      ⟨{ s.machine with locals := Host.frame p args }, s.notes.into p⟩ := by
  obtain rfl := tells.machine
  exact ⟨rfl, rfl, tells.now.enter p.tree _, tells.pages⟩

theorem tells_leave {code' : Tree} {m₀ : Machine} {s₀ : Beside Diary}
    (before : Tells trees closed first code m₀ s₀) (tells : Tells trees closed first code' m s) :
    Tells trees closed first code { m with locals := m₀.locals }
      ⟨{ s.machine with locals := s₀.machine.locals }, Diary.back s₀.notes s.notes⟩ := by
  obtain rfl := tells.machine
  obtain rfl := before.machine
  exact ⟨rfl, before.running, tells.now.reframe before.now, tells.pages⟩

variable {host : Host}

/-- Calls are told of, whatever code makes them, unless there are none. -/
theorem invoke_tells (calling : ¬ closed)
    (known : ∀ n p, host.body? n = some p → trees p.tree) (depth : Nat) (name : String) {n : Nat}
    {p : Program} (found : host.body? n = some p) (args : List Float) (code : Tree) :
    Tracks (Over (Tells trees closed first code)) (Lost Moment.Fine)
      ((Tape.kernel host).invoke host depth name p args)
      ((diary host).invoke host depth name p args) := by
  induction depth generalizing name n p args code with
  | zero => exact .of_agree (agree_throw _) (keeps_throw _)
  | succ depth ih =>
      have shut : closed → p.tree.Closed := fun shut => absurd shut calling
      have body : Tracks (Over (Tells trees closed first p.tree)) (Lost Moment.Fine) _ _ :=
        (kernel_tells (known n p found) shut host).walk (tracks_lockstep _ _) (.inl rfl)
          (fun _ => rfl) (fun _ _ _ found name args => ih name found args p.tree) p.tree.every_own
      exact body.enter (fun _ _ tells => tells_enter tells p args)
        (fun _ _ _ _ before tells => tells_leave before tells) (fun _ => id) fun _ _ => id

end Beside

/-- What may run is the program and the bodies of the functions of a host. -/
def Host.Runs (host : Host) (program : Program) (t : Tree) : Prop :=
  t = program.tree ∨ ∃ n p, host.body? n = some p ∧ t = p.tree

theorem Host.log_eq (host : Host) (program : Program) (store : Store) :
    host.log program store = (lastState (host.record program store)).log := by
  unfold log
  cases host.record program store <;> rfl

/-- If all that is touched is fine, every page of a run is kept, and so is what it ends with. -/
theorem Host.pages_kept (host : Host) (program : Program) (store : Store)
    (fine : ∀ m ∈ host.log program store, m.Fine) :
    let last := lastState (host.diary program store)
    Beside.Tells (host.Runs program) program.tree.Closed (start program store) program.tree
      last.machine last := by
  intro last
  have known : host.Runs program program.tree := .inl rfl
  have tracked : Tracks (Tape.Over (Beside.Tells (host.Runs program) program.tree.Closed
      (start program store) program.tree)) (Tape.Lost Moment.Fine)
      ((Tape.kernel host).run host program) ((Beside.diary host).run host program) := by
    apply (Beside.kernel_tells known id host).walk (tracks_lockstep _ _) (.inl rfl) fun _ => rfl
    · intro n p called found name args
      by_cases calling : program.tree.Closed
      · exact absurd called (calling.calls n)
      · exact Beside.invoke_tells calling (fun n p found => .inr ⟨n, p, found, rfl⟩) _ name found
          args program.tree
    · exact program.tree.every_own
  have same := tracked.to_end (s := Tape.blank program store)
    (t := ⟨start program store, ⟨program.tree, [], []⟩⟩)
    ⟨rfl, rfl, ⟨fun _ => rfl, by simp, by simp, fun _ _ _ => rfl⟩, by simp⟩ ?_
  · have tells := same.state
    have machine_eq := tells.machine
    rwa [Tape.Over, ← machine_eq] at tells
  · rintro ⟨m, logged, bad⟩
    rw [log_eq] at fine
    exact bad (fine m logged)

/-! ### Compiled programs -/

theorem Moment.Licensed.settle {m : Moment} (licensed : m.Licensed) (folding : Bool) :
    (m.settle folding).Licensed := by
  unfold Licensed at *
  cases event_eq : m.event <;> simp_all [Moment.settle, Event.settle]

/-- Whatever an evaluation touches is fine, in whatever state of the world a program was compiled
and in whatever later one it is evaluated. -/
theorem World.Reached.fine {w w' : World} (reached : w.Reached) (later : w'.Follows w)
    {table text : String} {settings : Settings} {program : Program}
    (compiled : compile (w.table table) settings [] text = .ok program)
    (check : Option Check) (limit rounds : Nat) (store : Store) :
    ∀ m ∈ (w'.host check limit rounds).log program store, m.Fine := by
  obtain ⟨plain, q, -, unfolds, kept⟩ := reached.unfolds later compiled check limit rounds
  intro m inside
  obtain ⟨folding, n, logged, rfl⟩ := unfolds.echoes store m inside
  exact ⟨((kept store).placed n logged).settle folding,
    ((kept store).licensed n logged).settle folding⟩

end MathScript
