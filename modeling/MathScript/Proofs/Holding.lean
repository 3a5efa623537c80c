import MathScript.Proofs.Ownership

/-!
Who holds a function. A table holds the functions that its names stand for, a compositor those that
it knows. A group that is registered is held by both of them, by numbers that no function had
before; everything else that may happen takes holders away or leaves them. So what is held was held
before or has just been registered.
-/

namespace MathScript

/-! ### Functions bound by a table -/

namespace Table

variable {t t' t'' : Table}

/-- Some entry of the name is the function with this number. -/
def Binds (t : Table) (name : String) (n : Nat) : Prop :=
  ∃ arity, (name, .function (.composed n arity)) ∈ t.entries

/-- Every function that `t'` binds is bound by `t`. -/
def Inherits (t' t : Table) : Prop := ∀ name n, t'.Binds name n → t.Binds name n

theorem binds_iff {n : Nat} : t.binds n = true ↔ ∃ name, t.Binds name n := by
  simp only [binds, List.any_eq_true, Binds]
  constructor
  · rintro ⟨⟨name, s⟩, inside, same⟩
    dsimp only at same
    split at same
    · next m arity =>
        obtain rfl := beq_iff_eq.mp same
        exact ⟨name, arity, inside⟩
    · cases same
  · rintro ⟨name, arity, inside⟩
    exact ⟨_, inside, beq_self_eq_true n⟩

theorem Inherits.refl (t : Table) : t.Inherits t := fun _ _ => id

theorem Inherits.trans (rest : t''.Inherits t') (first : t'.Inherits t) : t''.Inherits t :=
  fun name n bound => first name n (rest name n bound)

theorem inherits_of_subset (fewer : t'.entries ⊆ t.entries) : t'.Inherits t := by
  rintro name n ⟨arity, inside⟩
  exact ⟨arity, fewer inside⟩

theorem insert_inherits {name : String} {s : Symbol} (inserted : t.insert name s = .ok t')
    (other : ∀ n arity, s ≠ .function (.composed n arity)) : t'.Inherits t := by
  obtain ⟨-, rfl⟩ := insert_ok inserted
  rintro name n ⟨arity, inside⟩
  rcases List.mem_cons.mp inside with new | old
  · exact absurd (Prod.mk.inj new).2.symm (other n arity)
  · exact ⟨arity, old⟩

theorem insertNative_inherits {name : String} {number : Nat} {f : Native}
    (inserted : t.insertNative name number f = .ok t') : t'.Inherits t := by
  obtain ⟨-, c, called, inserted⟩ := insertNative_ok inserted
  refine insert_inherits inserted ?_
  rintro n arity ⟨⟩
  -- A native function is called by its own number, never by that of a definition.
  cases f with
  | scalar | vararg => cases called
  | generic text run =>
      rw [Native.callable] at called
      split at called
      · cases called
      · cases called

theorem insertNatives_inherits {functions : List (String × Native)} {number : Nat}
    (inserted : t.insertNatives number functions = .ok t') : t'.Inherits t := by
  induction functions generalizing t number with
  | nil =>
      cases inserted
      exact Inherits.refl t
  | cons e rest ih =>
      obtain ⟨name, f⟩ := e
      rw [insertNatives_cons] at inserted
      cases first : t.insertNative name number f with
      | error e =>
          rw [first] at inserted
          cases inserted
      | ok middle =>
          rw [first] at inserted
          exact (ih inserted).trans (insertNative_inherits first)

theorem erase_inherits (name : String) :
    ({ t with entries := Named.erase name t.entries } : Table).Inherits t :=
  inherits_of_subset (Named.erase_subset name t.entries)

theorem remove_inherits {name : String} (removed : t.remove name = .ok t') : t'.Inherits t := by
  obtain ⟨-, -, rfl⟩ := remove_ok removed
  exact erase_inherits name

theorem release_inherits (name : String) : (Compositor.release t name).Inherits t := by
  unfold Compositor.release
  cases removed : t.remove name with
  | ok t' => exact remove_inherits removed
  | error e => exact Inherits.refl t

theorem releases_inherit (names : List String) :
    (names.foldl Compositor.release t).Inherits t := by
  induction names generalizing t with
  | nil => exact Inherits.refl t
  | cons name names ih => exact ih.trans (release_inherits name)

end Table

namespace Registry

variable {r r' r'' : Registry} {op : Operation} {owner : Nat} {name : String} {n : Nat}

/-! ### Holders -/

/-- The table or a compositor has the function with this number under the name. -/
inductive Holds (r : Registry) (name : String) (n : Nat) : Prop
  | table (bound : r.table.Binds name n)
  | compositor (owner : Nat) (known : (name, n) ∈ (r.compositor owner).known)

/-- No holder has been added. -/
structure Sheds (r r' : Registry) : Prop where
  table : r'.table.Inherits r.table
  known : ∀ owner, (r'.compositor owner).known ⊆ (r.compositor owner).known
  natives : r.natives ≤ r'.natives

theorem Sheds.refl (r : Registry) : r.Sheds r :=
  ⟨.refl _, fun _ => List.Subset.refl _, Nat.le_refl _⟩

theorem Sheds.trans (first : r.Sheds r') (rest : r'.Sheds r'') : r.Sheds r'' :=
  ⟨rest.table.trans first.table,
    fun owner => List.Subset.trans (rest.known owner) (first.known owner),
    Nat.le_trans first.natives rest.natives⟩

theorem sheds_withTable {t : Table} (inherits : t.Inherits r.table) (numbers : Nat) :
    r.Sheds { r with table := t, natives := r.natives + numbers } :=
  ⟨inherits, fun _ => List.Subset.refl _, Nat.le_add_right _ _⟩

/-- What another compositor knows stays. -/
theorem Sheds.withCompositor {s : Registry} {c : Compositor} (sheds : r.Sheds s)
    (fewer : c.known ⊆ (r.compositor owner).known) : r.Sheds (s.withCompositor owner c) := by
  refine ⟨sheds.table, fun other => ?_, sheds.natives⟩
  rw [compositor_withCompositor]
  split
  · next same => exact same ▸ fewer
  · exact sheds.known other

theorem change_sheds {numbers : Nat} {next : Registry → Except SymbolError Table} (start : Registry)
    (made : ∀ r t, next r = .ok t → t.Inherits r.table) :
    Keeps (start.Sheds ·) (change numbers next) := by
  intro r sheds
  apply (change_ends numbers next r).mono
  · rintro _ _ ⟨t, done, rfl⟩
    exact sheds.trans (sheds_withTable (made r t done) _)
  · rintro _ _ ⟨-, rfl⟩
    exact sheds

/-! ### What is registered -/

/-- The operation registers a group with one compositor: its names are in the table before the first
of its bodies is compiled. -/
structure Declares (r : Registry) (op : Operation) (owner : Nat) (group : List Definition)
    (t : Table) (compiled : List Composed) : Prop where
  asked : op = .define owner group
  declared : Compositor.Declared r.table r.functions.size group t
  bodies : Compositor.compileAll t (r.compositor owner).settings group = .ok compiled
  state : r.after op =
    { r with table := t, functions := r.functions ++ compiled.toArray }.withCompositor owner
      { r.compositor owner with
        known := Compositor.remember (r.compositor owner).known r.functions.size group }

/-- Only a group that is registered adds holders. -/
theorem sheds_or_declares (r : Registry) (op : Operation) :
    r.Sheds (r.after op) ∨ ∃ owner group t compiled, r.Declares op owner group t compiled := by
  have kept (keeps : Keeps (r.Sheds ·) (perform op)) : r.Sheds (r.after op) ∨
      ∃ owner group t compiled, r.Declares op owner group t compiled :=
    .inl (ends_lastState.mp (keeps r (.refl r)))
  cases op with
  | bind name s plain =>
      exact kept (change_sheds r fun _ _ inserted =>
        Table.insert_inherits inserted fun n arity => plain (.composed n arity))
  | constants =>
      exact kept (keeps_forM (fun _ => change_sheds r fun _ _ inserted =>
        Table.insert_inherits inserted (by simp)) _)
  | native name f =>
      exact kept (change_sheds r fun _ _ inserted => Table.insertNative_inherits inserted)
  | package functions =>
      exact kept (change_sheds r fun _ _ inserted => Table.insertNatives_inherits inserted)
  | remove name =>
      exact kept (change_sheds r fun _ _ removed => Table.remove_inherits removed)
  | freeze => exact .inl ⟨.refl _, fun _ => List.Subset.refl _, Nat.le_refl _⟩
  | attach owner settings => exact .inl ((Sheds.refl r).withCompositor (List.nil_subset _))
  | define owner group =>
      rcases r.after_define owner group with same | ⟨t, compiled, declared, bodies, state⟩
      · rw [same]
        exact .inl (.refl r)
      · exact .inr ⟨owner, group, t, compiled, rfl, declared, bodies, state⟩
  | undefine owner name =>
      left
      cases known : (r.compositor owner).find? name with
      | none =>
          rw [after_undefine_unknown known]
          exact (Sheds.refl r).withCompositor (List.Subset.refl _)
      | some n =>
          rw [after_undefine_known known]
          exact (sheds_withTable (Table.release_inherits name) 0).withCompositor
            (Named.erase_subset name _)
  | undefineAll owner =>
      exact .inl ((sheds_withTable (Table.releases_inherit _) 0).withCompositor
        (List.nil_subset _))
  | elsewhere natives functions =>
      exact .inl ⟨.refl _, fun _ => List.Subset.refl _, Nat.le_add_right _ _⟩

theorem natives_after (r : Registry) (op : Operation) : r.natives ≤ (r.after op).natives := by
  rcases r.sheds_or_declares op with sheds | ⟨owner, group, t, compiled, declares⟩
  · exact sheds.natives
  · rw [declares.state]
    exact Nat.le_refl _

/-- The operation registers the function under the name with one compositor: by a number that none
had before, and compiled against the table that it is registered in. -/
structure Adds (r : Registry) (op : Operation) (owner : Nat) (name : String) (n : Nat) : Prop where
  asked : ∃ group, op = .define owner group
  fresh : r.functions.size ≤ n
  composed : ∃ f settings body, (r.after op).functions[n]? = some f ∧ f.name = name ∧
    compile (r.after op).table settings f.params body = .ok f.program

theorem Declares.adds {group : List Definition} {t : Table} {compiled : List Composed}
    (declares : r.Declares op owner group t compiled) {i : Nat} {d : Definition}
    (turn : group[i]? = some d) : r.Adds op owner d.name (r.functions.size + i) := by
  obtain ⟨same, each⟩ := Compositor.compileAll_ok declares.bodies
  obtain ⟨bound, -⟩ := List.getElem?_eq_some_iff.mp turn
  obtain ⟨f, found⟩ : ∃ f, compiled[i]? = some f := ⟨_, List.getElem?_eq_getElem (same ▸ bound)⟩
  obtain ⟨d', turn', name_eq, params_eq, body⟩ := each i f found
  obtain rfl := Option.some.inj (turn.symm.trans turn')
  refine ⟨⟨group, declares.asked⟩, Nat.le_add_right _ _, f, (r.compositor owner).settings, d.body,
    ?_, name_eq, ?_⟩
  · rw [declares.state]
    simp [withCompositor, Array.getElem?_append, found]
  · rw [declares.state, params_eq]
    exact body

/-- Every function that a definition gives a number is registered by it. -/
theorem adds_of_fresh {group : List Definition} {f : Composed} (fresh : r.functions.size ≤ n)
    (found : (r.after (.define owner group)).functions[n]? = some f) :
    r.Adds (.define owner group) owner f.name n := by
  rcases r.after_define owner group with same | ⟨t, compiled, declared, bodies, state⟩
  · rw [same, Array.getElem?_eq_none fresh] at found
    cases found
  · obtain ⟨i, rfl⟩ := Nat.exists_eq_add_of_le fresh
    have turn : compiled[i]? = some f := by
      rw [state] at found
      simpa [withCompositor, Array.getElem?_append] using found
    obtain ⟨d, member, named, -⟩ := (Compositor.compileAll_ok bodies).2 i f turn
    exact named ▸ Declares.adds ⟨rfl, declared, bodies, state⟩ member

end Registry

namespace Compositor

theorem mem_bindings {number : Nat} {group : List Definition} {name : String} {n arity : Nat}
    (inside : (name, .function (.composed n arity)) ∈ (bindings number group).reverse) :
    ∃ i d, group[i]? = some d ∧ d.name = name ∧ n = number + i := by
  rw [List.mem_reverse, bindings, List.mem_mapIdx] at inside
  obtain ⟨i, bound, same⟩ := inside
  obtain ⟨rfl, called⟩ := Prod.mk.inj same
  cases called
  exact ⟨i, group[i], List.getElem?_eq_getElem bound, rfl, rfl⟩

theorem mem_remember {known : List (String × Nat)} {number : Nat} {group : List Definition}
    {e : String × Nat} (inside : e ∈ remember known number group) :
    e ∈ known ∨ ∃ i d, group[i]? = some d ∧ e = (d.name, number + i) := by
  induction group generalizing known number with
  | nil => exact .inl inside
  | cons d group ih =>
      rcases ih inside with put | ⟨i, d', turn, rfl⟩
      · rcases List.mem_cons.mp put with rfl | old
        · exact .inr ⟨0, d, rfl, rfl⟩
        · exact .inl (List.mem_filter.mp old).1
      · exact .inr ⟨i + 1, d', turn, by rw [Nat.add_assoc, Nat.add_comm 1]⟩

end Compositor

namespace Registry

variable {r : Registry} {op : Operation} {owner : Nat} {name : String} {n : Nat}

/-- What a compositor knows it knew before or has just registered. -/
theorem known_after (known : (name, n) ∈ ((r.after op).compositor owner).known) :
    (name, n) ∈ (r.compositor owner).known ∨ r.Adds op owner name n := by
  rcases r.sheds_or_declares op with sheds | ⟨other, group, t, compiled, declares⟩
  · exact .inl (sheds.known owner known)
  · rw [declares.state, compositor_withCompositor] at known
    split at known
    · next here =>
        rcases Compositor.mem_remember known with old | ⟨i, d, turn, same⟩
        · exact .inl (here ▸ old)
        · obtain ⟨rfl, rfl⟩ := Prod.mk.inj same
          exact .inr (here ▸ declares.adds turn)
    · exact .inl known

/-- What a table binds it bound before or has just been given. -/
theorem binds_after (bound : (r.after op).table.Binds name n) :
    r.table.Binds name n ∨ ∃ owner, r.Adds op owner name n := by
  rcases r.sheds_or_declares op with sheds | ⟨owner, group, t, compiled, declares⟩
  · exact .inl (sheds.table name n bound)
  · obtain ⟨arity, inside⟩ := bound
    rw [declares.state, declares.declared.entries] at inside
    rcases List.mem_append.mp inside with new | old
    · obtain ⟨i, d, turn, rfl, rfl⟩ := Compositor.mem_bindings new
      exact .inr ⟨owner, declares.adds turn⟩
    · exact .inl ⟨arity, old⟩

theorem holds_after (holds : (r.after op).Holds name n) :
    r.Holds name n ∨ ∃ owner, r.Adds op owner name n := by
  cases holds with
  | table bound => exact (binds_after bound).imp_left .table
  | compositor owner known =>
      exact (known_after known).imp (.compositor owner) fun adds => ⟨owner, adds⟩

/-- A compositor that has taken a function back has erased the name, and so has the table. -/
theorem undefine_ok {r' : Registry} (known : (r.compositor owner).find? name = some n)
    (taken : perform (.undefine owner name) r = .ok () r') :
    r' = { r with
        table := { r.table with entries := Named.erase name r.table.entries } }.withCompositor owner
      { r.compositor owner with known := Named.erase name (r.compositor owner).known } := by
  simp only [perform, Compositor.remove, known] at taken
  cases removed : r.table.remove name with
  | ok t =>
      obtain ⟨-, -, rfl⟩ := Table.remove_ok removed
      rw [removed] at taken
      exact (EStateM.Result.ok.inj taken).2.symm
  | error e =>
      rw [removed] at taken
      cases taken

/-- A compositor can take back what it knows from a table that has the name and may be changed. -/
theorem undefine_accepted (known : (r.compositor owner).find? name = some n)
    (changeable : r.table.immutable = false) (there : r.table.contains name = true) :
    ∃ r', perform (.undefine owner name) r = .ok () r' := by
  simp [perform, Compositor.remove, known, Table.remove, changeable, there]

theorem undefine_lets_go {r' : Registry} (known : (r.compositor owner).find? name = some n)
    (taken : perform (.undefine owner name) r = .ok () r') (m : Nat) :
    ¬ r'.table.Binds name m ∧ (name, m) ∉ (r'.compositor owner).known := by
  rw [undefine_ok known taken, compositor_withCompositor, if_pos rfl]
  refine ⟨?_, Named.not_mem_erase _ _ _⟩
  rintro ⟨arity, inside⟩
  exact Named.not_mem_erase _ _ _ inside

end Registry

end MathScript
