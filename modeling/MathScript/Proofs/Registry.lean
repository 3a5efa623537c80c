import MathScript.Proofs.Registering

/-!
A table, the compositors that are attached to it, and what may be done with them. Every operation
adds names, takes names out, or makes the table immutable; it never gives another meaning to a name
that is taken. So whatever happens to a table that was empty once, its names are identifiers that
are not reserved, what it refuses leaves it as it was, and when it is immutable it stays the same
for good.
-/

namespace MathScript

/-- A table and any number of compositors that register functions in it, told apart by numbers.
Natives and functions are numbered in the order in which they are registered. -/
structure Registry where
  table : Table
  natives : Nat
  functions : Array Composed
  compositor : Nat → Compositor

namespace Registry

def empty : Registry := ⟨Table.empty, 0, #[], fun _ => .withSettings {}⟩

def withCompositor (r : Registry) (owner : Nat) (c : Compositor) : Registry :=
  { r with compositor := fun other => if other = owner then c else r.compositor other }

/-- What may be asked of a table or of a compositor. Several constants are added one by one.
Natives and functions of other tables take numbers, too. -/
inductive Operation where
  | bind (name : String) (s : Symbol) (plain : ∀ f, s ≠ .function f)
  | constants
  | native (name : String) (f : Native)
  | package (functions : List (String × Native))
  | remove (name : String)
  | freeze
  | attach (owner : Nat) (settings : Settings)
  | define (owner : Nat) (group : List Definition)
  | undefine (owner : Nat) (name : String)
  | undefineAll (owner : Nat)
  | elsewhere (natives : Nat) (functions : Array Composed)

/-- Puts the next table in place, or leaves everything as it is. -/
def change (numbers : Nat) (next : Registry → Except SymbolError Table) :
    EStateM Failure Registry Unit := fun r =>
  match next r with
  | .ok t => .ok () { r with table := t, natives := r.natives + numbers }
  | .error e => .error (.symbol e) r

def perform : Operation → EStateM Failure Registry Unit
  | .bind name s _ => change 0 fun r => r.table.insert name s
  | .constants =>
      Table.constants.forM fun (name, x) => change 0 fun r => r.table.insert name (.constant x)
  | .native name f => change 1 fun r => r.table.insertNative name r.natives f
  | .package functions =>
      change functions.length fun r => r.table.insertNatives r.natives functions
  | .remove name => change 0 fun r => r.table.remove name
  | .freeze => modify fun r => { r with table := { r.table with immutable := true } }
  | .attach owner settings => modify (·.withCompositor owner (.withSettings settings))
  | .define owner group => fun r =>
      match (r.compositor owner).add r.functions group r.table with
      | .ok (c, functions) t =>
          .ok () ({ r with table := t, functions := functions }.withCompositor owner c)
      | .error e t => .error e { r with table := t }
  | .undefine owner name => fun r =>
      match (r.compositor owner).remove r.table name with
      | (.ok t, c) => .ok () ({ r with table := t }.withCompositor owner c)
      | (.error e, c) => .error (.symbol e) (r.withCompositor owner c)
  | .undefineAll owner => modify fun r =>
      let (t, c) := (r.compositor owner).clear r.table
      { r with table := t }.withCompositor owner c
  | .elsewhere natives functions => modify fun r =>
      { r with natives := r.natives + natives, functions := r.functions ++ functions }

/-- What an operation leaves, refused or not. -/
def after (r : Registry) (op : Operation) : Registry := lastState (perform op r)

def run (r : Registry) (history : List Operation) : Registry := history.foldl after r

end Registry

/-- The name may be given to a symbol. -/
structure Nameable (name : String) : Prop where
  identifier : isIdentifier name = true
  unreserved : isReserved name = false

theorem Nameable.spelled {name : String} (nameable : Nameable name) :
    isIdentifier name = true ∧ name ∉ keywords ∧ isBuiltin name = false := by
  have unreserved := nameable.unreserved
  rw [isReserved, Bool.or_eq_false_iff] at unreserved
  exact ⟨nameable.identifier, by simpa using unreserved.1, unreserved.2⟩

namespace Table

variable {t t' t'' : Table}

theorem Admits.nameable {name : String} (admits : t.Admits name) : Nameable name :=
  ⟨admits.identifier, admits.unreserved⟩

/-- Names have been added, and no name has lost its meaning. -/
structure Extends (t t' : Table) : Prop where
  named : ∀ e ∈ t'.entries, e ∈ t.entries ∨ Nameable e.1
  kept : ∀ name s, t.find? name = some s → t'.find? name = some s
  frozen : t.immutable = true → t' = t

theorem Extends.refl (t : Table) : t.Extends t :=
  ⟨fun _ inside => .inl inside, fun _ _ found => found, fun _ => rfl⟩

theorem Extends.trans (first : t.Extends t') (rest : t'.Extends t'') : t.Extends t'' := by
  constructor
  · intro e inside
    rcases rest.named e inside with old | nameable
    · exact first.named e old
    · exact .inr nameable
  · intro name s found
    exact rest.kept name s (first.kept name s found)
  · intro frozen
    obtain rfl := first.frozen frozen
    exact rest.frozen frozen

/-- New entries with names that the table admits. -/
theorem extends_append (new : List (String × Symbol))
    (admitted : ∀ e ∈ new, t.Admits e.1) :
    t.Extends { t with entries := new ++ t.entries } := by
  constructor
  · intro e inside
    rcases List.mem_append.mp inside with added | old
    · exact .inr (admitted e added).nameable
    · exact .inl old
  · intro name s found
    have skipped : new.lookup name = none := by
      rw [List.lookup_eq_none_iff]
      intro e inside
      have fresh := (admitted e inside).fresh
      simp only [bne_iff_ne]
      rintro rfl
      rw [fresh] at found
      cases found
    rw [find?, List.lookup_append, skipped]
    exact found
  · intro frozen
    cases new with
    | nil => rfl
    | cons e rest =>
        have changeable := (admitted e List.mem_cons_self).changeable
        rw [changeable] at frozen
        cases frozen

theorem insert_extends {name : String} {s : Symbol} (inserted : t.insert name s = .ok t') :
    t.Extends t' := by
  obtain ⟨admits, rfl⟩ := insert_ok inserted
  exact extends_append [(name, s)] (by simpa using admits)

theorem insertNative_extends {name : String} {number : Nat} {f : Native}
    (inserted : t.insertNative name number f = .ok t') : t.Extends t' := by
  obtain ⟨-, c, -, inserted⟩ := insertNative_ok inserted
  exact insert_extends inserted

theorem insertNatives_extends {functions : List (String × Native)} {number : Nat}
    (inserted : t.insertNatives number functions = .ok t') : t.Extends t' := by
  induction functions generalizing t number with
  | nil =>
      cases inserted
      exact Extends.refl t
  | cons e rest ih =>
      obtain ⟨name, f⟩ := e
      rw [insertNatives_cons] at inserted
      cases first : t.insertNative name number f with
      | error e =>
          rw [first] at inserted
          cases inserted
      | ok middle =>
          rw [first] at inserted
          exact (insertNative_extends first).trans (ih inserted)

end Table

theorem Compositor.Declared.extends {t t' : Table} {number : Nat} {group : List Definition}
    (declared : Declared t number group t') : t.Extends t' := by
  rw [declared.entries]
  apply Table.extends_append
  intro e inside
  obtain ⟨d, member, same⟩ := List.mem_map.mp (fst_mem_of_mem_bindings inside)
  exact same ▸ declared.admitted d member

namespace Table

variable {t t' : Table}

/-- What one operation makes of a table: it adds names, takes names out, or makes it immutable. -/
inductive Evolves (t : Table) : Table → Prop where
  | grows {t' : Table} (extended : t.Extends t') : Evolves t t'
  | shrinks (names : List String) : Evolves t (names.foldl Compositor.release t)
  | freezes : Evolves t { t with immutable := true }

theorem Evolves.refl (t : Table) : t.Evolves t := .grows (Extends.refl t)

theorem remove_evolves {name : String} (removed : t.remove name = .ok t') : t.Evolves t' := by
  have taken := Evolves.shrinks (t := t) [name]
  rw [List.foldl_cons, List.foldl_nil, Compositor.release, removed] at taken
  exact taken

theorem Evolves.named (evolves : t.Evolves t') :
    ∀ e ∈ t'.entries, e ∈ t.entries ∨ Nameable e.1 := by
  cases evolves with
  | grows extended => exact extended.named
  | shrinks names =>
      intro e inside
      by_cases frozen : t.immutable = true
      · rw [Compositor.releases_of_immutable frozen] at inside
        exact .inl inside
      · rw [Compositor.releases_of_mutable (by simpa using frozen)] at inside
        exact .inl (List.mem_filter.mp inside).1
  | freezes => exact fun e inside => .inl inside

theorem Evolves.frozen (evolves : t.Evolves t') (frozen : t.immutable = true) : t' = t := by
  cases evolves with
  | grows extended => exact extended.frozen frozen
  | shrinks names => exact Compositor.releases_of_immutable frozen names
  | freezes => rw [← frozen]

/-- A name that is taken keeps its meaning or is given up. -/
theorem Evolves.bound (evolves : t.Evolves t') {name : String} {s : Symbol}
    (found : t.find? name = some s) : t'.find? name = some s ∨ t'.find? name = none := by
  cases evolves with
  | grows extended => exact .inl (extended.kept name s found)
  | shrinks names =>
      by_cases frozen : t.immutable = true
      · rw [Compositor.releases_of_immutable frozen]
        exact .inl found
      · rw [Compositor.find?_releases (by simpa using frozen)]
        split
        · exact .inr rfl
        · exact .inl found
  | freezes => exact .inl found

end Table

namespace Registry

variable {r : Registry}

theorem evolves_of_ends {op : Operation}
    (ends : Ends (perform op) r (fun _ r' => r.table.Evolves r'.table)
      fun _ r' => r.table.Evolves r'.table) : r.table.Evolves (r.after op).table :=
  ends_lastState.mp ends

theorem change_ends (numbers : Nat) (next : Registry → Except SymbolError Table) (r : Registry) :
    Ends (change numbers next) r
      (fun _ r' => ∃ t, next r = .ok t ∧ r' = { r with table := t, natives := r.natives + numbers })
      fun e r' => (∃ e', next r = .error e' ∧ e = .symbol e') ∧ r' = r := by
  unfold Ends change
  cases next r with
  | ok t => exact ⟨t, rfl, rfl⟩
  | error e => exact ⟨⟨e, rfl, rfl⟩, rfl⟩

theorem change_evolves {numbers : Nat} {next : Registry → Except SymbolError Table}
    (made : ∀ t, next r = .ok t → r.table.Evolves t) :
    Ends (change numbers next) r (fun _ r' => r.table.Evolves r'.table)
      fun _ r' => r.table.Evolves r'.table := by
  apply (change_ends numbers next r).mono
  · rintro _ _ ⟨t, done, rfl⟩
    exact made t done
  · rintro _ _ ⟨-, rfl⟩
    exact .refl _

theorem constants_extend (r : Registry) :
    Keeps (fun r' => r.table.Extends r'.table) (perform .constants) := by
  apply keeps_forM
  rintro ⟨name, x⟩ r' grown
  apply (change_ends 0 (fun r => r.table.insert name (.constant x)) r').mono
  · rintro _ _ ⟨t, inserted, rfl⟩
    exact grown.trans (Table.insert_extends inserted)
  · rintro _ _ ⟨-, rfl⟩
    exact grown

/-- A group is registered as a whole, or nothing has changed. -/
theorem after_define (r : Registry) (owner : Nat) (group : List Definition) :
    r.after (.define owner group) = r ∨ ∃ t compiled,
      Compositor.Declared r.table r.functions.size group t ∧
      Compositor.compileAll t (r.compositor owner).settings group = .ok compiled ∧
      r.after (.define owner group) =
        { r with table := t, functions := r.functions ++ compiled.toArray }.withCompositor owner
          { r.compositor owner with
            known := Compositor.remember (r.compositor owner).known r.functions.size group } := by
  have ends := Compositor.add_ends (r.compositor owner) r.functions group r.table
  simp only [after, perform]
  cases added : (r.compositor owner).add r.functions group r.table with
  | error e t =>
      obtain rfl : t = r.table := ends.of_error added
      exact .inl rfl
  | ok result t =>
      obtain ⟨c, functions⟩ := result
      obtain ⟨declared, -, rfl, compiled, bodies, rfl⟩ := ends.of_ok added
      exact .inr ⟨t, compiled, declared, bodies, rfl⟩

/-- What one operation does to the table, refused or not. -/
theorem evolves_after (r : Registry) (op : Operation) : r.table.Evolves (r.after op).table := by
  cases op with
  | bind name s plain =>
      exact evolves_of_ends (change_evolves fun _ inserted =>
        .grows (Table.insert_extends inserted))
  | constants =>
      have extended := constants_extend r r (.refl r.table)
      exact evolves_of_ends (extended.mono (fun _ _ => .grows) fun _ _ => .grows)
  | native name f =>
      exact evolves_of_ends (change_evolves fun _ inserted =>
        .grows (Table.insertNative_extends inserted))
  | package functions =>
      exact evolves_of_ends (change_evolves fun _ inserted =>
        .grows (Table.insertNatives_extends inserted))
  | remove name =>
      exact evolves_of_ends (change_evolves fun _ removed => Table.remove_evolves removed)
  | freeze => exact .freezes
  | attach | elsewhere => exact .refl r.table
  | define owner group =>
      rcases r.after_define owner group with same | ⟨t, compiled, declared, -, state⟩
      · rw [same]
        exact .refl r.table
      · rw [state]
        exact .grows declared.extends
  | undefine owner name =>
      simp only [after, perform, Compositor.remove]
      cases (r.compositor owner).find? name with
      | none => exact .refl r.table
      | some n =>
          cases removed : r.table.remove name with
          | ok t => exact Table.remove_evolves removed
          | error e => exact .refl r.table
  | undefineAll owner => exact .shrinks _

/-! ### What is refused -/

/-- One request, as opposed to several constants that are added one by one. -/
def Operation.Whole : Operation → Prop
  | .constants => False
  | _ => True

theorem refused_kept {op : Operation} {e : Failure} {r' : Registry} (whole : op.Whole)
    (refused : perform op r = .error e r') : r'.table = r.table := by
  cases op with
  | bind | native | package | remove =>
      unfold perform at refused
      rw [((change_ends _ _ r).of_error refused).2]
  | constants => cases whole
  | freeze | attach | undefineAll | elsewhere => cases refused
  | define owner group =>
      have ends := Compositor.add_ends (r.compositor owner) r.functions group r.table
      unfold perform at refused
      dsimp only at refused
      split at refused
      · cases refused
      · next e t added =>
          obtain ⟨-, rfl⟩ := EStateM.Result.error.inj refused
          exact ends.of_error added
  | undefine owner name =>
      unfold perform at refused
      dsimp only at refused
      split at refused
      · cases refused
      · obtain ⟨-, rfl⟩ := EStateM.Result.error.inj refused
        rfl

theorem package_refused_iff {functions : List (String × Native)} :
    (∃ e r', perform (.package functions) r = .error e r') ↔ ¬ r.table.AdmitsAll functions := by
  rw [← @Table.insertNatives_ok_iff _ functions r.natives]
  simp only [perform, change]
  cases r.table.insertNatives r.natives functions with
  | ok t => simp
  | error e => simp

/-! ### Histories -/

theorem run_append (r : Registry) (first rest : List Operation) :
    r.run (first ++ rest) = (r.run first).run rest :=
  List.foldl_append

theorem nameable_empty : ∀ e ∈ empty.table.entries, Nameable e.1 := fun _ inside => nomatch inside

theorem nameable_run {r : Registry} (named : ∀ e ∈ r.table.entries, Nameable e.1)
    (history : List Operation) : ∀ e ∈ (r.run history).table.entries, Nameable e.1 := by
  induction history generalizing r with
  | nil => exact named
  | cons op history ih =>
      apply ih
      intro e inside
      rcases (evolves_after r op).named e inside with old | nameable
      · exact named e old
      · exact nameable

theorem frozen_run {r : Registry} (frozen : r.table.immutable = true) (history : List Operation) :
    (r.run history).table = r.table := by
  induction history generalizing r with
  | nil => rfl
  | cons op history ih =>
      have kept := (evolves_after r op).frozen frozen
      calc ((r.after op).run history).table = (r.after op).table := ih (kept ▸ frozen)
        _ = r.table := kept

/-- Whatever happened to a table that was empty, its names are identifiers that no one reserves;
what it refuses, wherever in a package the fault is, leaves it as it was; and after it was made
immutable it stays the same through everything that follows. -/
theorem registry_invariant (history : List Operation) :
    (∀ e ∈ (empty.run history).table.entries,
      isIdentifier e.1 = true ∧ e.1 ∉ keywords ∧ isBuiltin e.1 = false) ∧
    (∀ (op : Operation) (e : Failure) (r' : Registry), op.Whole →
      perform op (empty.run history) = .error e r' →
      r'.table.entries = (empty.run history).table.entries) ∧
    (∀ functions, (∃ e r', perform (.package functions) (empty.run history) = .error e r') ↔
      ¬ (empty.run history).table.AdmitsAll functions) ∧
    ∀ later, (empty.run (history ++ .freeze :: later)).table.entries =
      (empty.run history).table.entries := by
  constructor
  · intro e inside
    exact (nameable_run nameable_empty history e inside).spelled
  constructor
  · intro op e r' whole refused
    rw [refused_kept whole refused]
  constructor
  · exact fun functions => package_refused_iff
  · intro later
    rw [run_append]
    have frozen : ((empty.run history).after .freeze).table.immutable = true := rfl
    have kept := congrArg Table.entries (frozen_run frozen later)
    exact kept

end Registry

end MathScript
