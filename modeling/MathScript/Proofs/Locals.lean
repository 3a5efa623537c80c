import MathScript.Proofs.Unfolding

/-!
Locals. Whenever a local is read or written its slot is one of the frame and holds a value of
its kind, put there since the frame was made; so no access falls outside of the frame, and none
finds a value of another kind. Every declaration of a program has a slot of its own. The one
exception is an index of a string that is assigned to: it is both bounds of a range, so its tree
stands there twice, declarations and all.
-/

namespace MathScript

theorem Moment.InPlace.settle {m : Moment} (placed : m.InPlace) (folding : Bool) :
    (m.settle folding).InPlace := by
  unfold InPlace at *
  cases event_eq : m.event <;> simp_all [Moment.settle, Event.settle, Moment.Holds]

/-- Every read and write of an evaluation is in place, in whatever state of the world a program
was compiled and in whatever later one it is evaluated. -/
theorem locals_in_place {w w' : World} (reached : w.Reached) (later : w'.Follows w)
    {table text : String} {settings : Settings} {program : Program}
    (compiled : compile (w.table table) settings [] text = .ok program)
    (check : Option Check) (limit rounds : Nat) (store : Store) :
    (∀ m ∈ (w'.host check limit rounds).log program store, m.InPlace) ∧
    program.tree.declared.Nodup ∧ ∀ f ∈ w'.functions, f.program.tree.declared.Nodup := by
  constructor
  · obtain ⟨plain, q, -, unfolds, kept⟩ := reached.unfolds later compiled check limit rounds
    intro m inside
    obtain ⟨folding, n, logged, rfl⟩ := unfolds.echoes store m inside
    exact ((kept store).placed n logged).settle folding
  · constructor
    · exact (compile_compiled compiled).distinct
    · intro f inside
      obtain ⟨n, found⟩ := Array.mem_iff_getElem?.mp inside
      exact ((later.since reached.sound).sound.functions n f found).distinct

/-- A function that is called, a loop and its counter. -/
theorem locals_in_place_of_loop :
    let w := World.empty.run [.define "t" [⟨"twice", ["n"], "var k := n; k + n"⟩]]
    let w' := w.run [.freeze "t"]
    ∃ program,
      compile (w.table "t") {} []
        "var x := twice(2); for (var i := 0; i < 2; i += 1) { x += i }; x" = .ok program ∧
      (∀ m ∈ (w'.host none 100 1000).log program Store.empty, m.InPlace) ∧
      program.tree.declared.Nodup ∧ ∀ f ∈ w'.functions, f.program.tree.declared.Nodup := by
  intro w w'
  have accepted : (compile (w.table "t") {} []
      "var x := twice(2); for (var i := 0; i < 2; i += 1) { x += i }; x").toOption.isSome =
        true := by
    decide +kernel
  obtain ⟨program, compiled⟩ := compile_accepted accepted
  exact ⟨program, compiled,
    locals_in_place ⟨_, rfl⟩ ⟨[.freeze "t"], rfl⟩ compiled none 100 1000 Store.empty⟩

/-- An index of a string that is assigned to is read twice, so what it declares is declared
twice. -/
theorem string_target_declares_twice :
    ∃ program,
      compile Table.empty {} [] "var s := 'abc'; s[{var k := 1; k}] := 'x'" = .ok program ∧
      ¬ (program.tree.nodes.flatMap Tree.declares).Nodup := by
  have slots : (compile Table.empty {} [] "var s := 'abc'; s[{var k := 1; k}] := 'x'").toOption.map
      (fun program => program.tree.nodes.flatMap Tree.declares) = some [0, 1, 1] := by
    decide +kernel
  cases compiled : compile Table.empty {} [] "var s := 'abc'; s[{var k := 1; k}] := 'x'" with
  | error ds =>
      rw [compiled] at slots
      cases slots
  | ok program =>
      rw [compiled] at slots
      have slots_eq : program.tree.nodes.flatMap Tree.declares = [0, 1, 1] := Option.some.inj slots
      exact ⟨program, rfl, by rw [slots_eq]; decide⟩

end MathScript
