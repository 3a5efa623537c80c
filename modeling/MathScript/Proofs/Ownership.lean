import MathScript.Proofs.Registry

/-!
What compositors take out of their table. A compositor remembers its functions by name, and by name
it takes them out. What it takes is its own as long as no one else has taken one of its names out
before: then the name may have been given to something else, and that is what goes.
-/

namespace MathScript.Registry

variable {r : Registry} {op : Operation} {owner : Nat} {name : String}

/-- The name stands for the very function that the compositor registered under it. -/
def Owns (r : Registry) (owner : Nat) (name : String) : Prop :=
  ∃ n arity, (r.compositor owner).find? name = some n ∧
    r.table.find? name = some (.function (.composed n arity))

/-- The compositor knows a function by the name, but the name stands for something else. -/
def Displaced (r : Registry) (owner : Nat) (name : String) : Prop :=
  (r.compositor owner).find? name ≠ none ∧ r.table.contains name = true ∧ ¬ r.Owns owner name

/-- The operation takes the name out of the table. -/
def Loses (r : Registry) (op : Operation) (name : String) : Prop :=
  r.table.contains name = true ∧ (r.after op).table.contains name = false

/-- The compositor is asked to take back one of its functions, or all of them. -/
def Operation.WithdrawnBy (owner : Nat) : Operation → Prop
  | .undefine other _ | .undefineAll other => other = owner
  | _ => False

theorem contains_eq_false {t : Table} : t.contains name = false ↔ t.find? name = none := by
  simp [Table.contains]

theorem compositor_withCompositor (r : Registry) (owner other : Nat) (c : Compositor) :
    (r.withCompositor owner c).compositor other = if other = owner then c else r.compositor other :=
  rfl

/-! ### What a compositor takes out -/

theorem after_undefine_unknown (unknown : (r.compositor owner).find? name = none) :
    r.after (.undefine owner name) = r.withCompositor owner (r.compositor owner) := by
  simp only [after, perform, Compositor.remove, unknown, lastState_error]

/-- Whether the table lets the name go or not, the compositor forgets it. -/
theorem after_undefine_known {n : Nat} (known : (r.compositor owner).find? name = some n) :
    r.after (.undefine owner name) =
      { r with table := Compositor.release r.table name }.withCompositor owner
        { r.compositor owner with known := Named.erase name (r.compositor owner).known } := by
  simp only [after, perform, Compositor.remove, known, Compositor.release]
  cases r.table.remove name <;> rfl

theorem after_undefineAll (r : Registry) (owner : Nat) :
    r.after (.undefineAll owner) =
      { r with table := ((r.compositor owner).known.map Prod.fst).foldl Compositor.release r.table
        }.withCompositor owner { r.compositor owner with known := [] } :=
  rfl

theorem loses_releases (names : List String) (released : (r.after op).table =
    names.foldl Compositor.release r.table) (loses : r.Loses op name) :
    r.table.immutable = false ∧ name ∈ names := by
  obtain ⟨there, gone⟩ := loses
  rw [released] at gone
  by_cases frozen : r.table.immutable = true
  · rw [Compositor.releases_of_immutable frozen, there] at gone
    cases gone
  · have changeable : r.table.immutable = false := by simpa using frozen
    rw [contains_eq_false, Compositor.find?_releases changeable] at gone
    by_cases inside : name ∈ names
    · exact ⟨changeable, inside⟩
    · rw [if_neg inside] at gone
      simp [Table.contains, gone] at there

/-- A compositor takes out only names it knows, forgets them, and finds the table changeable. -/
theorem withdrawn (withdrawn : op.WithdrawnBy owner) (loses : r.Loses op name) :
    r.table.immutable = false ∧ (r.compositor owner).find? name ≠ none ∧
      ((r.after op).compositor owner).find? name = none := by
  cases op with
  | undefine other taken =>
      obtain rfl : other = owner := withdrawn
      cases known : (r.compositor other).find? taken with
      | none =>
          have kept := loses_releases [] (by rw [after_undefine_unknown known]; rfl) loses
          exact nomatch kept.2
      | some n =>
          have state := after_undefine_known known
          obtain ⟨changeable, same⟩ := loses_releases [taken] (by rw [state]; rfl) loses
          obtain rfl : name = taken := List.mem_singleton.mp same
          rw [state, compositor_withCompositor, if_pos rfl]
          exact ⟨changeable, by simp [known], Named.lookup_erase_self name _⟩
  | undefineAll other =>
      obtain rfl : other = owner := withdrawn
      have state := after_undefineAll r other
      obtain ⟨changeable, inside⟩ := loses_releases _ (by rw [state]; rfl) loses
      constructor
      · exact changeable
      constructor
      · intro unknown
        obtain ⟨e, member, same⟩ := List.mem_map.mp inside
        rw [Compositor.find?, List.lookup_eq_none_iff] at unknown
        simpa [same] using unknown e member
      · rw [state, compositor_withCompositor, if_pos rfl]
        rfl
  | _ => cases withdrawn

/-- A name that a compositor knows is taken out when the compositor is told to. -/
theorem undefine_loses (changeable : r.table.immutable = false)
    (known : (r.compositor owner).find? name ≠ none) (there : r.table.contains name = true) :
    r.Loses (.undefine owner name) name := by
  obtain ⟨n, known⟩ := Option.ne_none_iff_exists'.mp known
  have gone : (Compositor.release r.table name).find? name = none := by
    rw [Compositor.release_of_mutable changeable, Table.find?_erase, if_pos rfl]
  constructor
  · exact there
  · rw [after_undefine_known known]
    exact contains_eq_false.mpr gone

/-! ### What a compositor knows -/

theorem change_keeps {c : Nat → Compositor} {functions : Array Composed} (numbers : Nat)
    (next : Registry → Except SymbolError Table) :
    Keeps (fun r => r.compositor = c ∧ r.functions = functions) (change numbers next) := by
  intro r same
  apply (change_ends numbers next r).mono
  · rintro _ _ ⟨t, -, rfl⟩
    exact same
  · rintro _ _ ⟨-, rfl⟩
    exact same

theorem kept_after
    (keeps : Keeps (fun r' => r'.compositor = r.compositor ∧ r'.functions = r.functions)
      (perform op)) :
    (r.after op).compositor = r.compositor ∧ (r.after op).functions = r.functions :=
  ends_lastState.mp (keeps r ⟨rfl, rfl⟩)

theorem constants_keep :
    Keeps (fun r' => r'.compositor = r.compositor ∧ r'.functions = r.functions)
      (perform .constants) :=
  keeps_forM (fun _ => change_keeps _ _) _

/-- What one compositor knows is its own affair. -/
theorem find?_withCompositor {s : Registry} {other : Nat} {c : Compositor} (owner : Nat)
    (before : s.compositor = r.compositor)
    (own : c.find? name = none ∨ c.find? name = (r.compositor other).find? name) :
    ((s.withCompositor other c).compositor owner).find? name = none ∨
      ((s.withCompositor other c).compositor owner).find? name =
        (r.compositor owner).find? name := by
  rw [compositor_withCompositor]
  by_cases same : owner = other
  · rw [if_pos same, same]
    exact own
  · rw [if_neg same, before]
    exact .inr rfl

/-- The operation registers the name with the compositor, under the next free number that is its
turn. -/
structure Registers (r : Registry) (owner : Nat) (group : List Definition) (i : Nat)
    (name : String) : Prop where
  turn : (group.map Definition.name)[i]? = some name
  number : ((r.after (.define owner group)).compositor owner).find? name =
    some (r.functions.size + i)
  inside : r.functions.size + i < (r.after (.define owner group)).functions.size
  owns : (r.after (.define owner group)).Owns owner name

theorem registers_of_declared {group : List Definition} {t : Table} {compiled : List Composed}
    {i : Nat} (declared : Compositor.Declared r.table r.functions.size group t)
    (bodies : Compositor.compileAll t (r.compositor owner).settings group = .ok compiled)
    (state : r.after (.define owner group) =
      { r with table := t, functions := r.functions ++ compiled.toArray }.withCompositor owner
        { r.compositor owner with
          known := Compositor.remember (r.compositor owner).known r.functions.size group })
    (turn : (group.map Definition.name)[i]? = some name) : r.Registers owner group i name := by
  rw [List.getElem?_map, Option.map_eq_some_iff] at turn
  obtain ⟨d, found, rfl⟩ := turn
  obtain ⟨bound, -⟩ := List.getElem?_eq_some_iff.mp found
  obtain ⟨members, -⟩ := Compositor.lookup_remember r.functions.size
    (r.compositor owner).known declared.distinct
  have number : ((r.after (.define owner group)).compositor owner).find? d.name =
      some (r.functions.size + i) := by
    rw [state, compositor_withCompositor, if_pos rfl]
    exact members i d found
  constructor
  · rw [List.getElem?_map, found]
    rfl
  · exact number
  · have size := (Compositor.compileAll_ok bodies).1
    rw [state]
    simp only [withCompositor, Array.size_append, List.size_toArray]
    omega
  · exact ⟨_, _, number, by rw [state]; exact declared.find?_self found⟩

/-- After an operation a compositor does not know a name, or knows it as before, or has just
registered it. -/
theorem knows_after (r : Registry) (op : Operation) (owner : Nat) (name : String) :
    ((r.after op).compositor owner).find? name = none ∨
      ((r.after op).compositor owner).find? name = (r.compositor owner).find? name ∨
      ∃ group i, op = .define owner group ∧ r.Registers owner group i name := by
  cases op with
  | bind | native | package | remove =>
      exact .inr (.inl (by rw [(kept_after (change_keeps _ _)).1]))
  | constants =>
      exact .inr (.inl (by rw [(kept_after constants_keep).1]))
  | freeze | elsewhere => exact .inr (.inl rfl)
  | attach other settings =>
      exact Or.imp_right .inl (find?_withCompositor owner rfl (.inl rfl))
  | undefine other taken =>
      cases known : (r.compositor other).find? taken with
      | none =>
          rw [after_undefine_unknown known]
          exact Or.imp_right .inl (find?_withCompositor owner rfl (.inr rfl))
      | some n =>
          rw [after_undefine_known known]
          by_cases here : name = taken
          · have forgotten := Named.lookup_erase_self taken (r.compositor other).known
            exact Or.imp_right .inl (find?_withCompositor owner rfl (.inl (here ▸ forgotten)))
          · have kept := Named.lookup_erase_of_ne here (r.compositor other).known
            exact Or.imp_right .inl (find?_withCompositor owner rfl (.inr kept))
  | undefineAll other =>
      rw [after_undefineAll]
      exact Or.imp_right .inl (find?_withCompositor owner rfl (.inl rfl))
  | define other group =>
      rcases r.after_define other group with same | ⟨t, compiled, declared, bodies, state⟩
      · rw [same]
        exact .inr (.inl rfl)
      · obtain ⟨members, others⟩ := Compositor.lookup_remember r.functions.size
          (r.compositor other).known declared.distinct
        by_cases inside : name ∈ group.map Definition.name
        · by_cases same : owner = other
          · obtain ⟨i, turn⟩ := List.mem_iff_getElem?.mp inside
            subst same
            exact .inr (.inr ⟨group, i, rfl, registers_of_declared declared bodies state turn⟩)
          · rw [state, compositor_withCompositor, if_neg same]
            exact .inr (.inl rfl)
        · rw [state]
          exact Or.imp_right .inl (find?_withCompositor owner rfl (.inr (others name inside)))

/-! ### Numbers -/

/-- Functions are never replaced. -/
theorem functions_after (r : Registry) (op : Operation) :
    ∃ more, (r.after op).functions = r.functions ++ more := by
  have same : (r.after op).functions = r.functions →
      ∃ more, (r.after op).functions = r.functions ++ more :=
    fun same => ⟨#[], by rw [same, Array.append_empty]⟩
  cases op with
  | bind | native | package | remove => exact same (kept_after (change_keeps _ _)).2
  | constants => exact same (kept_after constants_keep).2
  | freeze | attach | undefineAll => exact same rfl
  | undefine other taken =>
      cases known : (r.compositor other).find? taken with
      | none => exact same (by rw [after_undefine_unknown known]; rfl)
      | some n => exact same (by rw [after_undefine_known known]; rfl)
  | define other group =>
      rcases r.after_define other group with kept | ⟨t, compiled, -, -, state⟩
      · exact same (congrArg functions kept)
      · exact ⟨compiled.toArray, congrArg functions state⟩
  | elsewhere natives functions => exact ⟨functions, rfl⟩

theorem size_after (r : Registry) (op : Operation) :
    r.functions.size ≤ (r.after op).functions.size := by
  obtain ⟨more, grown⟩ := r.functions_after op
  rw [grown, Array.size_append]
  exact Nat.le_add_right _ _

/-- What compositors know are functions, each known to one compositor by one name. -/
structure Numbered (r : Registry) : Prop where
  inside : ∀ owner name n, (r.compositor owner).find? name = some n → n < r.functions.size
  once : ∀ owner name other called n, (r.compositor owner).find? name = some n →
    (r.compositor other).find? called = some n → owner = other ∧ name = called

theorem numbered_after (numbered : r.Numbered) (op : Operation) : (r.after op).Numbered := by
  have grown := size_after r op
  constructor
  · intro owner name n found
    rcases knows_after r op owner name with unknown | same | ⟨group, i, rfl, registers⟩
    · rw [unknown] at found
      cases found
    · have before := numbered.inside owner name n (same ▸ found)
      omega
    · obtain rfl := Option.some.inj (registers.number.symm.trans found)
      exact registers.inside
  · intro owner name other called n found found'
    rcases knows_after r op owner name with unknown | same | ⟨group, i, rfl, registers⟩
    · rw [unknown] at found
      cases found
    · rcases knows_after r op other called with unknown | same' | ⟨group, i, rfl, registers⟩
      · rw [unknown] at found'
        cases found'
      · exact numbered.once owner name other called n (same ▸ found) (same' ▸ found')
      · -- An old number is not a new one.
        have before := numbered.inside owner name n (same ▸ found)
        have number := Option.some.inj (registers.number.symm.trans found')
        omega
    · have number := Option.some.inj (registers.number.symm.trans found)
      rcases knows_after r (.define owner group) other called with
        unknown | same' | ⟨group', j, defined, registers'⟩
      · rw [unknown] at found'
        cases found'
      · have before := numbered.inside other called n (same' ▸ found')
        omega
      · cases defined
        have number' := Option.some.inj (registers'.number.symm.trans found')
        obtain rfl : i = j := by omega
        exact ⟨rfl, Option.some.inj (registers.turn.symm.trans registers'.turn)⟩

theorem numbered_run (numbered : r.Numbered) (history : List Operation) :
    (r.run history).Numbered := by
  induction history generalizing r with
  | nil => exact numbered
  | cons op history ih => exact ih (numbered_after numbered op)

theorem numbered_empty : empty.Numbered := by
  constructor
  · exact fun _ _ _ found => nomatch found
  · exact fun _ _ _ _ _ found => nomatch found

/-! ### How a name is lost -/

/-- A compositor that knows a name it does not own has lost it to someone else. -/
theorem lost_to_other {history : List Operation}
    (owned : (r.compositor owner).find? name ≠ none → r.Owns owner name)
    (known : ((r.run history).compositor owner).find? name ≠ none)
    (lost : ¬ (r.run history).Owns owner name) :
    ∃ before foreign later, history = before ++ foreign :: later ∧
      ¬ foreign.WithdrawnBy owner ∧ (r.run before).Owns owner name ∧
      (r.run before).Loses foreign name := by
  induction history generalizing r with
  | nil => exact absurd (owned known) lost
  | cons op rest ih =>
      by_cases still : ((r.after op).compositor owner).find? name ≠ none →
          (r.after op).Owns owner name
      · obtain ⟨before, foreign, later, rfl, others, own, loses⟩ := ih still known lost
        exact ⟨op :: before, foreign, later, rfl, others, own, loses⟩
      · -- This is the operation: the name was owned, is still known and does not stand for the
        -- function any more.
        obtain ⟨knows, gone⟩ := Classical.not_imp.mp still
        have same : ((r.after op).compositor owner).find? name =
            (r.compositor owner).find? name := by
          rcases knows_after r op owner name with unknown | same | ⟨group, i, rfl, registers⟩
          · exact absurd unknown knows
          · exact same
          · exact absurd registers.owns gone
        have own : r.Owns owner name := owned (same ▸ knows)
        obtain ⟨n, arity, number, found⟩ := own
        have loses : r.Loses op name := by
          rcases (evolves_after r op).bound found with kept | taken
          · exact absurd ⟨n, arity, same.trans number, kept⟩ gone
          · exact ⟨by simp [Table.contains, found], contains_eq_false.mpr taken⟩
        have foreign : ¬ op.WithdrawnBy owner := fun own => knows (withdrawn own loses).2.2
        exact ⟨[], op, rest, rfl, foreign, ⟨n, arity, number, found⟩, loses⟩

/-- All that a compositor takes out of the table is its own if and only if the table lets nothing go
or none of the names it knows stands for something else. A name does only when an operation of
someone else has taken it out of the table while the compositor owned it. No function has two
owners. -/
theorem removes_own_iff (history : List Operation) (owner : Nat) :
    ((∀ op name, op.WithdrawnBy owner → (empty.run history).Loses op name →
        (empty.run history).Owns owner name) ↔
      (empty.run history).table.immutable = true ∨
        ∀ name, ¬ (empty.run history).Displaced owner name) ∧
    (∀ name, (empty.run history).Displaced owner name → ∃ before foreign later,
      history = before ++ foreign :: later ∧ ¬ foreign.WithdrawnBy owner ∧
        (empty.run before).Owns owner name ∧ (empty.run before).Loses foreign name) ∧
    ∀ name other, (empty.run history).Owns owner name → (empty.run history).Owns other name →
      other = owner := by
  constructor
  · constructor
    · intro own
      by_cases frozen : (empty.run history).table.immutable = true
      · exact .inl frozen
      · refine .inr fun name displaced => ?_
        obtain ⟨known, there, gone⟩ := displaced
        have loses := undefine_loses (by simpa using frozen) known there
        exact gone (own (.undefine owner name) name rfl loses)
    · intro safe op name own loses
      obtain ⟨changeable, known, -⟩ := withdrawn own loses
      rcases safe with frozen | safe
      · rw [frozen] at changeable
        cases changeable
      · by_cases own : (empty.run history).Owns owner name
        · exact own
        · exact absurd ⟨known, loses.1, own⟩ (safe name)
  constructor
  · intro name displaced
    obtain ⟨known, there, gone⟩ := displaced
    have fresh : (empty.compositor owner).find? name ≠ none → empty.Owns owner name :=
      fun known => absurd rfl known
    exact lost_to_other fresh known gone
  · rintro name other ⟨n, arity, known, found⟩ ⟨m, arity', known', found'⟩
    cases found.symm.trans found'
    exact ((numbered_run numbered_empty history).once other name owner name _ known' known).1

/-- The name of a function was taken out and given to a variable. Taking every function back then
takes the variable. -/
theorem removes_own_iff_of_rebinding :
    let x : Symbol := .scalar ⟨0⟩
    let history : List Operation :=
      [.define 0 [⟨"f", [], "1"⟩], .remove "f", .bind "f" x (by simp [x])]
    (empty.run history).table.find? "f" = some x ∧
    ((empty.run history).after (.undefineAll 0)).table.find? "f" = none ∧
    (¬ ∀ op name, op.WithdrawnBy 0 → (empty.run history).Loses op name →
      (empty.run history).Owns 0 name) ∧
    ∃ before foreign later, history = before ++ foreign :: later ∧ ¬ foreign.WithdrawnBy 0 ∧
      (empty.run before).Owns 0 "f" ∧ (empty.run before).Loses foreign "f" := by
  intro x history
  have bound : (empty.run history).table.find? "f" = some x := by decide +kernel
  have displaced : (empty.run history).Displaced 0 "f" := by
    have known : ((empty.run history).compositor 0).find? "f" ≠ none := by decide +kernel
    refine ⟨known, by simp [Table.contains, bound], ?_⟩
    rintro ⟨n, arity, -, found⟩
    simp [bound, x] at found
  obtain ⟨own, lost, -⟩ := removes_own_iff history 0
  refine ⟨bound, by decide +kernel, ?_, lost "f" displaced⟩
  intro all
  rcases own.mp all with frozen | safe
  · have changeable : (empty.run history).table.immutable = false := by decide +kernel
    rw [changeable] at frozen
    cases frozen
  · exact safe "f" displaced

end MathScript.Registry
