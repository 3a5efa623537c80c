import MathScript.Proofs.Estate
import MathScript.Proofs.History

/-!
The tables of a world, each with its only compositor, as an estate. What a host does to its world
is, seen from its tables, a sequence of requests, and no table or compositor is listed twice. So
what holds of every history of an estate holds of every world that can be reached, and what holds
of every history of a registry holds of each of its tables.
-/

namespace MathScript.World

variable {w w' : World} {name : String}

/-- One table with its compositor, the only one it has in a world. -/
def registry (w : World) (name : String) : Registry where
  table := w.table name
  natives := w.natives.size
  functions := w.functions
  compositor owner := if owner = 0 then w.compositor name else .withSettings {}

def estate (w : World) : Estate where
  natives := w.natives.size
  functions := w.functions
  tables := w.table
  compositors name := (w.registry name).compositor

/-- What is listed under a name is what the name stands for. -/
structure Distinct (w : World) : Prop where
  tables : (w.tables.map Prod.fst).Nodup
  compositors : (w.compositors.map Prod.fst).Nodup

theorem registry_estate (w : World) (name : String) : w.estate.registry name = w.registry name :=
  rfl

theorem estate_withTable (w : World) (table : String) (t : Table) :
    (w.withTable table t).estate =
      w.estate.withRegistry table { w.registry table with table := t } := by
  have tables : (w.withTable table t).table =
      fun other => if other = table then t else w.table other :=
    funext fun other => table_withTable w table other t
  refine Estate.ext rfl rfl tables (funext fun other => ?_)
  by_cases same : other = table
  · subst same
    exact (if_pos rfl).symm
  · exact (if_neg same).symm

theorem estate_withCompositor (w : World) (table : String) (c : Compositor) :
    (w.withCompositor table c).estate =
      w.estate.withRegistry table ((w.registry table).withCompositor 0 c) := by
  refine Estate.ext rfl rfl (funext fun other => ?_) (funext fun other => ?_)
  · by_cases same : other = table
    · subst same
      exact (if_pos rfl).symm
    · exact (if_neg same).symm
  · funext owner
    show (if owner = 0 then (w.withCompositor table c).compositor other else _) = _
    rw [compositor_withCompositor]
    by_cases same : other = table
    · by_cases first : owner = 0 <;>
        simp [same, first, Estate.withRegistry, Registry.withCompositor, registry]
    · simp [same, Estate.withRegistry, estate, registry]

theorem estate_replaced (w : World) (table : String) (t : Table) (c : Compositor) :
    ((w.withTable table t).withCompositor table c).estate =
      w.estate.withRegistry table ({ w.registry table with table := t }.withCompositor 0 c) := by
  have state : (w.withTable table t).registry table = { w.registry table with table := t } := by
    simp only [registry, table_withTable]
    rfl
  rw [estate_withCompositor, state, estate_withTable, Estate.withRegistry_withRegistry]

/-! ### Requests -/

/-- The tables come from what they were by requests. -/
structure Operated (w w' : World) : Prop where
  requests : ∃ requests, w'.estate = w.estate.run requests
  distinct : w.Distinct → w'.Distinct

theorem Operated.of_same (estate : w'.estate = w.estate) (tables : w'.tables = w.tables)
    (compositors : w'.compositors = w.compositors) : Operated w w' :=
  ⟨⟨[], estate⟩, fun distinct => ⟨tables ▸ distinct.tables, compositors ▸ distinct.compositors⟩⟩

theorem Operated.of_after {table : String} {r : Registry} (op : Registry.Operation)
    (asked : (w.registry table).after op = r) (made : w'.estate = w.estate.withRegistry table r)
    (distinct : w.Distinct → w'.Distinct) : Operated w w' :=
  ⟨⟨[⟨table, op⟩], by rw [made, ← asked]; rfl⟩, distinct⟩

theorem Operated.trans {w'' : World} (first : Operated w w') (rest : Operated w' w'') :
    Operated w w'' := by
  obtain ⟨⟨requests, came⟩, distinct⟩ := first
  obtain ⟨⟨requests', came'⟩, distinct'⟩ := rest
  exact ⟨⟨requests ++ requests', by rw [came', came, Estate.run_append]⟩, distinct' ∘ distinct⟩

theorem Distinct.withTable (distinct : w.Distinct) (table : String) (t : Table) :
    (w.withTable table t).Distinct :=
  ⟨Named.nodup_put distinct.tables table t, distinct.compositors⟩

theorem Distinct.withCompositor (distinct : w.Distinct) (table : String) (c : Compositor) :
    (w.withCompositor table c).Distinct :=
  ⟨distinct.tables, Named.nodup_put distinct.compositors table c⟩

/-- A change that tables can be asked for, refused or not. -/
def Operates {ε α : Type} (x : EStateM ε World α) : Prop := ∀ w, Keeps (Operated w) x

theorem operates_of_ends {ε α : Type} {x : EStateM ε World α}
    (ends : ∀ w, Ends x w (fun _ => Operated w) fun _ => Operated w) : Operates x := by
  intro w w' before
  exact (ends w').mono (fun _ _ after => before.trans after) fun _ _ after => before.trans after

theorem operated_changed {table : String} {t : Table} (op : Registry.Operation)
    (asked : (w.registry table).after op = { w.registry table with table := t }) :
    Operated w (w.withTable table t) :=
  .of_after op asked (estate_withTable w table t) fun distinct => distinct.withTable table t

theorem operated_recomposed {table : String} {c : Compositor} (op : Registry.Operation)
    (asked : (w.registry table).after op = (w.registry table).withCompositor 0 c) :
    Operated w (w.withCompositor table c) :=
  .of_after op asked (estate_withCompositor w table c) fun distinct =>
    distinct.withCompositor table c

theorem operated_replaced {table : String} {t : Table} {c : Compositor} (op : Registry.Operation)
    (asked : (w.registry table).after op =
      { w.registry table with table := t }.withCompositor 0 c) :
    Operated w ((w.withTable table t).withCompositor table c) :=
  .of_after op asked (estate_replaced w table t c) fun distinct =>
    (distinct.withTable table t).withCompositor table c

theorem operates_insert (table key : String) {s : Symbol} (plain : ∀ f, s ≠ .function f) :
    Operates (insert table key s) := by
  apply operates_of_ends
  intro w
  unfold Ends insert
  cases inserted : (w.table table).insert key s with
  | error e => exact .of_same rfl rfl rfl
  | ok t =>
      apply operated_changed (.bind key s plain)
      simp [Registry.after, Registry.perform, Registry.change, registry, inserted]

theorem operates_remove (table key : String) : Operates (remove table key) := by
  apply operates_of_ends
  intro w
  unfold Ends remove
  cases removed : (w.table table).remove key with
  | error e => exact .of_same rfl rfl rfl
  | ok t =>
      apply operated_changed (.remove key)
      simp [Registry.after, Registry.perform, Registry.change, registry, removed]

theorem operates_store {ε α : Type} (next : Store → α × Store) :
    Operates (modifyGet fun w =>
      let (a, store) := next w.store
      (a, { w with store := store }) : EStateM ε World α) :=
  operates_of_ends fun _ => .of_same rfl rfl rfl

theorem operates_share (table key source old : String) : Operates (share table key source old) := by
  intro w
  apply keeps_bind (fun _ before => before)
  intro before
  cases (before.table source).find? old with
  | none => exact keeps_pure false
  | some s =>
      dsimp only
      split
      · next stored =>
          have plain : ∀ f, s ≠ .function f := by
            rintro f rfl
            cases stored
          exact keeps_bind (operates_insert table key plain w) fun _ => keeps_pure true
      · exact keeps_pure false

theorem addMemories_estate (functions : List Native) (w : World) :
    (functions.foldl addMemory w).estate =
        { w.estate with natives := w.natives.size + functions.length } ∧
      (functions.foldl addMemory w).tables = w.tables ∧
      (functions.foldl addMemory w).compositors = w.compositors := by
  induction functions generalizing w with
  | nil => exact ⟨rfl, rfl, rfl⟩
  | cons f rest ih =>
      obtain ⟨estate, tables, compositors⟩ := ih (w.addMemory f)
      have size : (w.addMemory f).natives.size = w.natives.size + 1 := by
        simp [addMemory]
      refine ⟨?_, tables, compositors⟩
      rw [List.foldl_cons, estate, size, List.length_cons, Nat.add_assoc, Nat.add_comm 1]
      rfl

theorem operates_addNatives (table : String) (functions : List (String × Native)) :
    Operates (addNatives table functions) := by
  apply operates_of_ends
  intro w
  unfold Ends addNatives
  cases inserted : (w.table table).insertNatives w.natives.size functions with
  | error e => exact .of_same rfl rfl rfl
  | ok t =>
      obtain ⟨estate, tables, compositors⟩ := addMemories_estate (functions.map Prod.snd) w
      have asked : (w.registry table).after (.package functions) =
          { w.registry table with table := t, natives := w.natives.size + functions.length } := by
        simp [Registry.after, Registry.perform, Registry.change, registry, inserted]
      refine .of_after (.package functions) asked ?_ fun distinct => ?_
      · rw [estate_withTable, ← registry_estate, estate, List.length_map]
        rfl
      · exact Distinct.withTable ⟨tables ▸ distinct.tables, compositors ▸ distinct.compositors⟩ _ _

theorem operates_define (table : String) (group : List Definition) :
    Operates (define table group) := by
  apply operates_of_ends
  intro w
  unfold Ends define
  cases added : (w.compositor table).add w.functions group (w.table table) with
  | error e t =>
      apply operated_changed (.define 0 group)
      simp [Registry.after, Registry.perform, registry, added]
  | ok result t =>
      obtain ⟨c, functions⟩ := result
      have asked : (w.registry table).after (.define 0 group) =
          { w.registry table with table := t, functions := functions }.withCompositor 0 c := by
        simp [Registry.after, Registry.perform, registry, added]
      refine .of_after (.define 0 group) asked ?_ fun distinct => ?_
      · exact estate_replaced { w with functions := functions } table t c
      · have gained : Distinct { w with functions := functions } :=
          ⟨distinct.tables, distinct.compositors⟩
        exact (gained.withTable table t).withCompositor table c

theorem operates_undefine (table key : String) : Operates (undefine table key) := by
  apply operates_of_ends
  intro w
  unfold Ends undefine
  cases taken : (w.compositor table).remove (w.table table) key with
  | mk left c =>
      cases left with
      | ok t =>
          apply operated_replaced (.undefine 0 key)
          simp [Registry.after, Registry.perform, registry, taken]
      | error e =>
          apply operated_recomposed (.undefine 0 key)
          simp [Registry.after, Registry.perform, registry, taken]

theorem Operates.operated {ε α : Type} {x : EStateM ε World α} (operates : Operates x)
    (w : World) : Operated w (leave x w) := by
  rw [leave_eq]
  exact ends_lastState.mp (operates w w (.of_same rfl rfl rfl))

theorem operated_write (w : World) (table key : String) (v : Value) :
    Operated w (w.write table key v) := by
  unfold World.write
  split <;> exact .of_same rfl rfl rfl

theorem operated_after (w : World) (action : Action) : Operated w (w.after action) := by
  cases action with
  | addScalar table key x =>
      exact Operates.operated (fun w => keeps_bind
        (operates_store (fun store => (store.newScalar x).swap) w)
        fun _ => operates_insert table key (by simp) w) w
  | addVector table key xs =>
      exact Operates.operated (fun w => keeps_bind
        (operates_store (fun store => (store.newVector xs).swap) w)
        fun _ => operates_insert table key (by simp) w) w
  | addString table key text =>
      exact Operates.operated (fun w => keeps_bind
        (operates_store (fun store => (store.newString text).swap) w)
        fun _ => operates_insert table key (by simp) w) w
  | addConstant table key x => exact (operates_insert table key (by simp)).operated w
  | addConstants table =>
      exact Operates.operated
        (fun w => keeps_forM (fun _ => operates_insert table _ (by simp) w) Table.constants) w
  | share table key source old => exact (operates_share table key source old).operated w
  | addNatives table functions => exact (operates_addNatives table functions).operated w
  | remove table key => exact (operates_remove table key).operated w
  | freeze table => exact operated_changed .freeze rfl
  | write table key v => exact operated_write w table key v
  | define table group => exact (operates_define table group).operated w
  | undefine table key => exact (operates_undefine table key).operated w
  | undefineAll table => exact operated_replaced (.undefineAll 0) rfl
  | recompose table settings => exact operated_recomposed (.attach 0 settings) rfl
  | evaluate store => exact .of_same rfl rfl rfl

theorem Follows.operated (later : w'.Follows w) : Operated w w' := by
  obtain ⟨actions, rfl⟩ := later
  induction actions generalizing w with
  | nil => exact .of_same rfl rfl rfl
  | cons action actions ih => exact (operated_after w action).trans ih

theorem Follows.registry (later : w'.Follows w) (name : String) :
    ∃ ops, w'.registry name = (w.registry name).run ops := by
  obtain ⟨requests, came⟩ := later.operated.requests
  rw [← registry_estate, came]
  exact w.estate.registry_run requests name

/-! ### Worlds that can be reached -/

theorem Reached.later (reached : w.Reached) (later : w'.Follows w) : w'.Reached := by
  obtain ⟨actions, rfl⟩ := reached
  obtain ⟨more, rfl⟩ := later
  exact ⟨actions ++ more, List.foldl_append.symm⟩

theorem estate_empty : empty.estate = Estate.empty :=
  Estate.ext rfl rfl rfl (funext fun _ => funext fun _ => ite_self _)

/-- The tables of a world and their compositors have come to be by requests alone. -/
theorem Reached.estate (reached : w.Reached) : ∃ history, w.estate = Estate.empty.run history := by
  rw [← estate_empty]
  exact (Follows.operated reached).requests

theorem Reached.distinct (reached : w.Reached) : w.Distinct :=
  (Follows.operated reached).distinct ⟨List.nodup_nil, List.nodup_nil⟩

/-- Every table of a world, with its compositor, has come to be by operations on an empty one. -/
theorem Reached.registry (reached : w.Reached) (name : String) :
    ∃ history, w.registry name = Registry.empty.run history := by
  have start : empty.registry name = Registry.empty := by
    rw [← registry_estate, estate_empty]
    rfl
  rw [← start]
  exact Follows.registry reached name

/-- In a world every name of a table is one that may be given to a symbol. -/
theorem Reached.nameable (reached : w.Reached) (name : String) :
    ∀ e ∈ (w.table name).entries, Nameable e.1 := by
  obtain ⟨history, came⟩ := reached.registry name
  have tabled : w.table name = (Registry.empty.run history).table := congrArg (·.table) came
  rw [tabled]
  exact Registry.nameable_run Registry.nameable_empty history

/-- In a world every name of a table is an identifier that no one reserves. -/
theorem Reached.spelled (reached : w.Reached) (name : String) :
    ∀ e ∈ (w.table name).entries,
      isIdentifier e.1 = true ∧ e.1 ∉ keywords ∧ isBuiltin e.1 = false :=
  fun e inside => (reached.nameable name e inside).spelled

/-- An immutable table stays the same whatever happens to its world. -/
theorem Follows.frozen (later : w'.Follows w) (frozen : (w.table name).immutable = true) :
    w'.table name = w.table name := by
  obtain ⟨history, came⟩ := later.registry name
  have tabled : w'.table name = ((w.registry name).run history).table := congrArg (·.table) came
  rw [tabled]
  exact Registry.frozen_run frozen history

end MathScript.World
