import MathScript.Proofs.History

/-!
Groups of functions in a world. A compositor takes a group as a whole or not at all. What it took
stands behind the names of the group, compiled, and it hands out these very functions; where it
takes nothing, no table, no compositor and no function has changed.
-/

namespace MathScript

namespace World

variable {w w' : World} {table : String} {group : List Definition}

/-- No table, no compositor, no function and nothing stored differs. -/
structure Same (w w' : World) : Prop where
  tables : ∀ name, w'.table name = w.table name
  compositors : ∀ name, w'.compositor name = w.compositor name
  functions : w'.functions = w.functions
  natives : w'.natives = w.natives
  store : w'.store = w.store

/-- The definition is in force: its name stands for a function with its parameters, whose body is
its text compiled against the table; the body can be called, and it is what the compositor hands
out. -/
def Installed (w : World) (table : String) (d : Definition) : Prop :=
  ∃ (n : Nat) (f : Composed),
    (w.table table).find? d.name = some (.function (.composed n d.params.length)) ∧
    w.functions[n]? = some f ∧ f.name = d.name ∧ f.params = d.params ∧
    compile (w.table table) (w.compositor table).settings d.params d.body = .ok f.program ∧
    w.bodies[n]? = some (some f.program) ∧
    (w.compositor table).find? d.name = some n ∧ w.composed? table d.name = some f

/-- The world has gained a group of functions, and nothing else. -/
structure Gains (w : World) (table : String) (group : List Definition) (w' : World) : Prop where
  valid : ∀ d ∈ group, d.refusal? = none
  fresh : ∀ d ∈ group, (w.table table).Admits d.name
  distinct : (group.map Definition.name).Nodup
  installed : ∀ d ∈ group, w'.Installed table d
  names : ∀ name ∉ group.map Definition.name,
    (w'.table table).find? name = (w.table table).find? name ∧
      (w'.compositor table).find? name = (w.compositor table).find? name
  immutable : (w'.table table).immutable = (w.table table).immutable
  elsewhere : ∀ other, other ≠ table →
    w'.table other = w.table other ∧ w'.compositor other = w.compositor other
  functions : ∀ (n : Nat) (f : Composed), w.functions[n]? = some f → w'.functions[n]? = some f
  natives : w'.natives = w.natives
  store : w'.store = w.store

/-- A function that a table binds can be called. -/
theorem body_present {n arity : Nat} {f : Composed} {name : String}
    (bound : (w.table table).find? name = some (.function (.composed n arity)))
    (inside : w.functions[n]? = some f) : w.bodies[n]? = some (some f.program) := by
  have live : w.isLive n = true := by
    unfold World.table at bound
    cases found : w.tables.lookup table with
    | none => simp [found, Table.empty, Table.find?] at bound
    | some t =>
        rw [found, Option.getD_some] at bound
        have binds : t.binds n = true := by
          rw [Table.binds, List.any_eq_true]
          exact ⟨_, Named.mem_of_lookup_eq_some bound, by simp⟩
        rw [isLive, Bool.or_eq_true, List.any_eq_true]
        exact .inl ⟨_, Named.mem_of_lookup_eq_some found, binds⟩
  simp [bodies, inside, live]

/-- The world with a group in it that was declared in table `t` and compiled. -/
def withGroup (w : World) (table : String) (t : Table) (group : List Definition)
    (compiled : List Composed) : World :=
  let c := w.compositor table
  let known := Compositor.remember c.known w.functions.size group
  { w with functions := w.functions ++ compiled.toArray }.withTable table t
    |>.withCompositor table { c with known := known }

section

variable (w : World) (table : String) (t : Table) (group : List Definition)
  (compiled : List Composed)

theorem table_withGroup (other : String) :
    (w.withGroup table t group compiled).table other = if other = table then t else w.table other :=
  table_withTable { w with functions := w.functions ++ compiled.toArray } table other t

theorem compositor_withGroup (other : String) :
    (w.withGroup table t group compiled).compositor other =
      if other = table then
        { w.compositor table with
          known := Compositor.remember (w.compositor table).known w.functions.size group }
      else w.compositor other :=
  compositor_withCompositor _ table other _

theorem functions_withGroup :
    (∀ (n : Nat) (f : Composed), w.functions[n]? = some f →
      (w.withGroup table t group compiled).functions[n]? = some f) ∧
    ∀ i : Nat, (w.withGroup table t group compiled).functions[w.functions.size + i]? =
      compiled[i]? := by
  have appended : (w.withGroup table t group compiled).functions =
      w.functions ++ compiled.toArray := rfl
  rw [appended]
  constructor
  · intro n f found
    obtain ⟨bound, -⟩ := Array.getElem?_eq_some_iff.mp found
    rw [← found]
    exact Array.getElem?_append_left bound
  · intro i
    rw [Array.getElem?_append_right (Nat.le_add_right _ _), Nat.add_sub_cancel_left]
    simp

end

theorem gains_withGroup {t : Table} {compiled : List Composed}
    (valid : ∀ d ∈ group, d.refusal? = none)
    (declared : Compositor.Declared (w.table table) w.functions.size group t)
    (bodies : Compositor.compileAll t (w.compositor table).settings group = .ok compiled) :
    w.Gains table group (w.withGroup table t group compiled) := by
  obtain ⟨size, each⟩ := Compositor.compileAll_ok bodies
  obtain ⟨kept, added⟩ := w.functions_withGroup table t group compiled
  obtain ⟨members, others⟩ := Compositor.lookup_remember w.functions.size
    (w.compositor table).known declared.distinct
  have tabled : (w.withGroup table t group compiled).table table = t := by
    rw [table_withGroup, if_pos rfl]
  have knows : (w.withGroup table t group compiled).compositor table =
      { w.compositor table with
        known := Compositor.remember (w.compositor table).known w.functions.size group } := by
    rw [compositor_withGroup, if_pos rfl]
  constructor
  · exact valid
  · exact declared.admitted
  · exact declared.distinct
  · intro d inside
    obtain ⟨i, found⟩ := List.mem_iff_getElem?.mp inside
    obtain ⟨bound, -⟩ := List.getElem?_eq_some_iff.mp found
    have there : compiled[i]? = some compiled[i] := List.getElem?_eq_getElem (by omega)
    obtain ⟨e, same, named, params, body⟩ := each i _ there
    obtain rfl : d = e := Option.some.inj (found.symm.trans same)
    have binding := declared.find?_self found
    have function := (added i).trans there
    have handed : ((w.withGroup table t group compiled).compositor table).find? d.name =
        some (w.functions.size + i) := by
      rw [knows]
      exact members i d found
    rw [Installed, tabled]
    refine ⟨_, _, binding, function, named, params, ?_, ?_, handed, ?_⟩
    · rw [knows]
      exact body
    · exact body_present (tabled.symm ▸ binding) function
    · rw [composed?, handed]
      exact function
  · intro name other
    rw [tabled, knows]
    constructor
    · exact declared.find?_other other
    · exact others name other
  · rw [tabled, declared.entries]
  · intro other different
    rw [table_withGroup, compositor_withGroup, if_neg different, if_neg different]
    exact ⟨rfl, rfl⟩
  · exact kept
  · rfl
  · rfl

/-- A group is registered as a whole or not at all. -/
theorem define_all_or_nothing (w : World) (table : String) (group : List Definition) :
    Ends (define table group) w (fun _ => w.Gains table group) fun _ => w.Same := by
  have ends := Compositor.add_ends (w.compositor table) w.functions group (w.table table)
  unfold Ends define
  cases added : (w.compositor table).add w.functions group (w.table table) with
  | error e t =>
      obtain rfl : t = w.table table := ends.of_error added
      constructor
      · intro name
        rw [table_withTable]
        split
        · next same => rw [same]
        · rfl
      all_goals intros; rfl
  | ok result t =>
      obtain ⟨c, functions⟩ := result
      obtain ⟨declared, valid, rfl, compiled, bodies, rfl⟩ := ends.of_ok added
      exact gains_withGroup valid declared bodies

example :
    let w := empty.after (.define "t" [⟨"f", ["x"], "g(x)"⟩, ⟨"g", ["x"], "y"⟩])
    let w' := w.after (.define "t" [⟨"f", ["x"], "g(x)"⟩, ⟨"g", ["x"], "x"⟩])
    ((w.table "t").contains "f", (w'.table "t").contains "f") = (false, true) := by
  decide +kernel

end World

end MathScript
