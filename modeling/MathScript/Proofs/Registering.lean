import MathScript.Composition
import MathScript.Proofs.Flow

/-!
What becomes of a table when it is asked to change. It admits a name or refuses it; a name that was
added stands for what was added, a name that was removed for nothing, and every other name for what
it did. The functions of a package are staged before the first of them is added. The functions of a
group are declared one by one, and where one is refused those before it are taken out again: what
is left is the table there was, entry by entry.
-/

namespace MathScript

variable {t t' base : Table} {name other : String} {s : Symbol}

namespace Table

/-! ### One name -/

/-- The name may be added. -/
structure Admits (t : Table) (name : String) : Prop where
  changeable : t.immutable = false
  identifier : isIdentifier name = true
  unreserved : isReserved name = false
  fresh : t.find? name = none

theorem refusal?_eq_none : t.refusal? name = none ↔ t.Admits name := by
  unfold refusal?
  constructor
  · intro admitted
    split at admitted
    · cases admitted
    split at admitted
    · cases admitted
    split at admitted
    · cases admitted
    split at admitted
    · cases admitted
    constructor <;> simp_all [contains]
  · rintro ⟨changeable, identifier, unreserved, fresh⟩
    simp [changeable, identifier, unreserved, contains, fresh]

theorem insert_ok (inserted : t.insert name s = .ok t') :
    t.Admits name ∧ t' = { t with entries := (name, s) :: t.entries } := by
  unfold insert at inserted
  split at inserted
  · cases inserted
  · next admitted => exact ⟨refusal?_eq_none.mp admitted, (Except.ok.inj inserted).symm⟩

theorem Admits.insert (admits : t.Admits name) (s : Symbol) :
    t.insert name s = .ok { t with entries := (name, s) :: t.entries } := by
  rw [Table.insert, refusal?_eq_none.mpr admits]

theorem find?_insert (inserted : t.insert name s = .ok t') (other : String) :
    t'.find? other = if other = name then some s else t.find? other := by
  obtain ⟨-, rfl⟩ := insert_ok inserted
  rw [find?, List.lookup_cons]
  by_cases same : other = name
  · simp [same]
  · have skipped : (other == name) = false := by simpa using same
    simp [skipped, same, find?]

theorem remove_ok (removed : t.remove name = .ok t') :
    t.immutable = false ∧ t.contains name = true ∧
      t' = { t with entries := Named.erase name t.entries } := by
  unfold remove at removed
  split at removed
  · cases removed
  · next changeable =>
      split at removed
      · next known => exact ⟨by simpa using changeable, known, (Except.ok.inj removed).symm⟩
      · cases removed

theorem find?_erase (t : Table) (name other : String) :
    ({ t with entries := Named.erase name t.entries } : Table).find? other =
      if other = name then none else t.find? other := by
  split
  · next same => rw [same, find?, Named.lookup_erase_self]
  · next different => rw [find?, Named.lookup_erase_of_ne different, find?]

/-! ### Packages -/

theorem admits_cons : ({ t with entries := (name, s) :: t.entries } : Table).Admits other ↔
    t.Admits other ∧ other ≠ name := by
  constructor
  · rintro ⟨changeable, identifier, unreserved, fresh⟩
    rw [find?, List.lookup_cons] at fresh
    by_cases same : other = name
    · simp [same] at fresh
    · have skipped : (other == name) = false := by simpa using same
      rw [skipped] at fresh
      exact ⟨⟨changeable, identifier, unreserved, fresh⟩, same⟩
  · rintro ⟨⟨changeable, identifier, unreserved, fresh⟩, different⟩
    have skipped : (other == name) = false := by simpa using different
    constructor
    · exact changeable
    · exact identifier
    · exact unreserved
    · rw [find?, List.lookup_cons, skipped]
      exact fresh

theorem insertNative_ok {number : Nat} {f : Native}
    (inserted : t.insertNative name number f = .ok t') :
    t.Admits name ∧ ∃ c, f.callable name number = .ok c ∧
      t.insert name (.function c) = .ok t' := by
  unfold insertNative at inserted
  split at inserted
  · cases inserted
  · next admitted =>
      split at inserted
      · cases inserted
      · next c called => exact ⟨refusal?_eq_none.mp admitted, c, called, inserted⟩

/-- What was staged is refused like what is in the table. -/
theorem refusal?_append (t : Table) (staged : List (String × Symbol)) (name : String) :
    ({ t with entries := staged ++ t.entries } : Table).refusal? name =
      (t.refusal? name).or
        (if (staged.lookup name).isSome then some (.alreadyExists name) else none) := by
  have known : ({ t with entries := staged ++ t.entries } : Table).contains name =
      ((staged.lookup name).isSome || t.contains name) := by
    simp [contains, find?, List.lookup_append]
  unfold refusal?
  rw [known]
  cases t.immutable <;> cases isIdentifier name <;> cases isReserved name <;>
    cases t.contains name <;> cases (staged.lookup name).isSome <;> rfl

theorem stage_append (t : Table) (number : Nat) (front staged : List (String × Symbol))
    (functions : List (String × Native)) :
    t.stage number (front ++ staged) functions =
      (({ t with entries := staged ++ t.entries } : Table).stage number front functions).map
        (· ++ staged) := by
  induction functions generalizing number front with
  | nil => rfl
  | cons e rest ih =>
      obtain ⟨name, f⟩ := e
      rw [stage, stage, refusal?_append]
      cases t.refusal? name with
      | some e => rfl
      | none =>
          by_cases taken : (staged.lookup name).isSome
          · simp [taken, List.lookup_append, Except.map]
          by_cases repeated : (front.lookup name).isSome
          · simp [taken, repeated, List.lookup_append, Except.map]
          cases called : f.callable name number with
          | error e => simp [taken, repeated, List.lookup_append, Except.map]
          | ok c =>
              have later := ih (number + 1) ((name, .function c) :: front)
              simpa [taken, repeated, List.lookup_append] using later

/-- A package is added like its functions one after the other: the first that would be refused then
refuses all. -/
theorem insertNatives_cons (t : Table) (number : Nat) (name : String) (f : Native)
    (rest : List (String × Native)) :
    t.insertNatives number ((name, f) :: rest) =
      (t.insertNative name number f).bind fun t => t.insertNatives (number + 1) rest := by
  rw [insertNatives, stage, insertNative]
  cases admitted : t.refusal? name with
  | some e => rfl
  | none =>
      cases called : f.callable name number with
      | error e => rfl
      | ok c =>
          have first := (refusal?_eq_none.mp admitted).insert (.function c)
          have later := t.stage_append (number + 1) [] [(name, .function c)] rest
          simp only [List.nil_append, List.cons_append] at later
          simp only [first, later, Except.bind, List.lookup_nil, Option.isSome_none, insertNatives]
          cases Table.stage _ (number + 1) [] rest <;> simp [Except.map]

/-- A package may be added: every name of it may, none twice, and every signature can be read. -/
structure AdmitsAll (t : Table) (functions : List (String × Native)) : Prop where
  each : ∀ e ∈ functions, t.Admits e.1
  distinct : (functions.map Prod.fst).Nodup
  readable : ∀ e ∈ functions, ∀ text run, e.2 = .generic text run →
    (Signature.parse? text).isSome

theorem callable_ok_iff (f : Native) (name : String) (number : Nat) :
    (∃ c, f.callable name number = .ok c) ↔
      ∀ text run, f = .generic text run → (Signature.parse? text).isSome := by
  cases f with
  | scalar | vararg => simp [Native.callable]
  | generic text run =>
      rw [Native.callable]
      cases parsed : Signature.parse? text with
      | none =>
          constructor
          · rintro ⟨_, called⟩
            cases called
          · intro readable
            have readable := readable text run rfl
            rw [parsed] at readable
            cases readable
      | some signature =>
          constructor
          · intro _ text' run' same
            obtain ⟨rfl, -⟩ := Native.generic.inj same
            rw [parsed]
            rfl
          · exact fun _ => ⟨_, rfl⟩

theorem insertNatives_ok_iff {functions : List (String × Native)} {number : Nat} :
    (∃ t', t.insertNatives number functions = .ok t') ↔ t.AdmitsAll functions := by
  induction functions generalizing t number with
  | nil => exact ⟨fun _ => ⟨by simp, by simp, by simp⟩, fun _ => ⟨t, rfl⟩⟩
  | cons e rest ih =>
      obtain ⟨name, f⟩ := e
      rw [insertNatives_cons]
      constructor
      · rintro ⟨t', accepted⟩
        cases first : t.insertNative name number f with
        | error e => rw [first] at accepted; cases accepted
        | ok middle =>
            rw [first] at accepted
            obtain ⟨admits, c, called, inserted⟩ := insertNative_ok first
            obtain ⟨each, distinct, readable⟩ := ih.mp ⟨t', accepted⟩
            obtain ⟨-, rfl⟩ := insert_ok inserted
            constructor
            · intro e inside
              rcases List.mem_cons.mp inside with rfl | inside
              · exact admits
              · exact (admits_cons.mp (each e inside)).1
            · have once : name ∉ rest.map Prod.fst := by
                intro repeated
                obtain ⟨e, inside, same⟩ := List.mem_map.mp repeated
                exact (admits_cons.mp (each e inside)).2 same
              exact List.nodup_cons.mpr ⟨once, distinct⟩
            · intro e inside
              rcases List.mem_cons.mp inside with rfl | inside
              · exact (callable_ok_iff f name number).mp ⟨c, called⟩
              · exact readable e inside
      · rintro ⟨each, distinct, readable⟩
        obtain ⟨c, called⟩ :=
          (callable_ok_iff f name number).mpr (readable (name, f) List.mem_cons_self)
        have admits : t.Admits name := each (name, f) List.mem_cons_self
        rw [List.map_cons, List.nodup_cons] at distinct
        have first : t.insertNative name number f =
            .ok { t with entries := (name, .function c) :: t.entries } := by
          simp only [insertNative, refusal?_eq_none.mpr admits, called, admits.insert]
        rw [first]
        apply ih.mpr
        constructor
        · intro e inside
          have other : e.1 ≠ name := fun same =>
            distinct.1 (List.mem_map.mpr ⟨e, inside, same⟩)
          exact admits_cons.mpr ⟨each e (List.mem_cons_of_mem _ inside), other⟩
        · exact distinct.2
        · exact fun e inside => readable e (List.mem_cons_of_mem _ inside)

end Table

namespace Compositor

/-! ### Taking names out -/

theorem release_of_mutable (changeable : t.immutable = false) (name : String) :
    release t name = { t with entries := Named.erase name t.entries } := by
  have unlocked : ¬ t.immutable = true := by simp [changeable]
  rw [release, Table.remove, if_neg unlocked]
  split
  · rfl
  · next absent =>
      -- A name that is not there is not missed.
      have missing : t.find? name = none := by simpa [Table.contains] using absent
      rw [Named.erase_of_lookup_eq_none missing]
      rfl

theorem release_of_immutable (frozen : t.immutable = true) (name : String) :
    release t name = t := by
  simp [release, Table.remove, frozen, Except.toOption]

theorem releases_of_mutable (changeable : t.immutable = false) (names : List String) :
    names.foldl release t =
      { t with entries := t.entries.filter fun e => e.1 ∉ names } := by
  induction names generalizing t with
  | nil =>
      have all : (t.entries.filter fun e => e.1 ∉ []) = t.entries :=
        List.filter_eq_self.mpr (by simp)
      rw [all]
      rfl
  | cons name names ih =>
      rw [List.foldl_cons, release_of_mutable changeable, ih (by exact changeable)]
      simp only [Named.erase, List.filter_filter]
      congr 2
      funext e
      by_cases same : e.1 = name <;> simp [same]

theorem releases_of_immutable (frozen : t.immutable = true) (names : List String) :
    names.foldl release t = t := by
  induction names with
  | nil => rfl
  | cons name names ih => rw [List.foldl_cons, release_of_immutable frozen, ih]

theorem find?_releases (changeable : t.immutable = false) (names : List String) (name : String) :
    (names.foldl release t).find? name = if name ∈ names then none else t.find? name := by
  induction names generalizing t with
  | nil => simp
  | cons first names ih =>
      rw [List.foldl_cons, release_of_mutable changeable, ih (by exact changeable),
        Table.find?_erase]
      by_cases here : name = first
      · simp [here]
      · simp [here]

/-! ### Groups -/

/-- What the names of a group stand for. -/
def bindings (number : Nat) (group : List Definition) : List (String × Symbol) :=
  group.mapIdx fun i d => (d.name, .function (.composed (number + i) d.params.length))

theorem map_fst_bindings (number : Nat) (group : List Definition) :
    (bindings number group).map Prod.fst = group.map Definition.name := by
  apply List.ext_getElem?
  intro i
  simp [bindings, Function.comp_def]

theorem fst_mem_of_mem_bindings {number : Nat} {group : List Definition} {e : String × Symbol}
    (inside : e ∈ (bindings number group).reverse) : e.1 ∈ group.map Definition.name := by
  rw [← map_fst_bindings number]
  exact List.mem_map_of_mem (List.mem_reverse.mp inside)

/-- What the table `base` becomes when the names of a group are added to it. -/
structure Declared (base : Table) (number : Nat) (group : List Definition) (t : Table) : Prop where
  entries : t = { base with entries := (bindings number group).reverse ++ base.entries }
  admitted : ∀ d ∈ group, base.Admits d.name
  distinct : (group.map Definition.name).Nodup

section

variable {number : Nat} {group : List Definition}

theorem Declared.nil (t : Table) (number : Nat) : Declared t number [] t :=
  ⟨rfl, by simp, by simp⟩

theorem Declared.lookup_bindings (declared : Declared base number group t) {i : Nat}
    {d : Definition} (inside : group[i]? = some d) :
    (bindings number group).reverse.lookup d.name =
      some (.function (.composed (number + i) d.params.length)) := by
  apply Named.lookup_eq_some_of_mem
  · rw [List.map_reverse, map_fst_bindings]
    exact List.pairwise_reverse.mpr (declared.distinct.imp Ne.symm)
  · rw [List.mem_reverse, List.mem_iff_getElem?]
    exact ⟨i, by simp [bindings, inside]⟩

theorem lookup_bindings_eq_none (other : name ∉ group.map Definition.name) :
    (bindings number group).reverse.lookup name = none := by
  rw [List.lookup_eq_none_iff]
  intro e inside
  simp only [bne_iff_ne]
  rintro rfl
  exact other (fst_mem_of_mem_bindings inside)

theorem Declared.find?_self (declared : Declared base number group t) {i : Nat} {d : Definition}
    (inside : group[i]? = some d) :
    t.find? d.name = some (.function (.composed (number + i) d.params.length)) := by
  rw [declared.entries, Table.find?, List.lookup_append, declared.lookup_bindings inside]
  rfl

theorem Declared.find?_other (declared : Declared base number group t)
    (other : name ∉ group.map Definition.name) : t.find? name = base.find? name := by
  rw [declared.entries, Table.find?, List.lookup_append, lookup_bindings_eq_none other]
  rfl

theorem Declared.concat {d : Definition} (declared : Declared base number group t)
    (inserted : t.insert d.name (.function (.composed (number + group.length) d.params.length)) =
      .ok t') : Declared base number (group ++ [d]) t' := by
  obtain ⟨admits, rfl⟩ := Table.insert_ok inserted
  have unknown : d.name ∉ group.map Definition.name := by
    intro known
    obtain ⟨e, inside, same⟩ := List.mem_map.mp known
    obtain ⟨i, found⟩ := List.mem_iff_getElem?.mp inside
    have taken := declared.find?_self found
    rw [same, admits.fresh] at taken
    cases taken
  have fresh : base.find? d.name = none := declared.find?_other unknown ▸ admits.fresh
  constructor
  · rw [declared.entries]
    simp [bindings, List.mapIdx_concat]
  · intro e inside
    rcases List.mem_append.mp inside with before | last
    · exact declared.admitted e before
    · obtain rfl := List.mem_singleton.mp last
      have changeable := admits.changeable
      rw [declared.entries] at changeable
      exact ⟨changeable, admits.identifier, admits.unreserved, fresh⟩
  · rw [List.map_append, List.nodup_append]
    refine ⟨declared.distinct, by simp, ?_⟩
    intro taken known last inside same
    obtain rfl : last = d.name := by simpa using inside
    exact unknown (same ▸ known)

/-- Taking the names of a group out again leaves what there was before. -/
theorem Declared.undone (declared : Declared base number group t) : unregister t group = base := by
  cases group with
  | nil => exact declared.entries
  | cons d rest =>
      have changeable := (declared.admitted d List.mem_cons_self).changeable
      rw [unregister, declared.entries, releases_of_mutable (by exact changeable)]
      have gone : ((bindings number (d :: rest)).reverse.filter
          fun e => e.1 ∉ (d :: rest).map Definition.name) = [] := by
        rw [List.filter_eq_nil_iff]
        intro e inside
        simpa only [decide_not, Bool.not_eq_true, Bool.not_eq_false', decide_eq_true_eq] using
          fst_mem_of_mem_bindings inside
      have kept : (base.entries.filter fun e => e.1 ∉ (d :: rest).map Definition.name) =
          base.entries := by
        rw [List.filter_eq_self]
        intro e inside
        have other : e.1 ∉ (d :: rest).map Definition.name := by
          intro known
          obtain ⟨g, member, same⟩ := List.mem_map.mp known
          have fresh := (declared.admitted g member).fresh
          rw [Table.find?, List.lookup_eq_none_iff] at fresh
          simpa [same] using fresh e inside
        simpa only [decide_eq_true_eq] using other
      rw [List.filter_append, gone, kept]
      rfl

/-- The functions of a group in order, each compiled against the whole group. -/
theorem compileAll_ok {settings : Settings} {functions : List Composed}
    (compiled : compileAll t settings group = .ok functions) :
    functions.length = group.length ∧ ∀ (i : Nat) (g : Composed), functions[i]? = some g →
      ∃ d : Definition, group[i]? = some d ∧ g.name = d.name ∧ g.params = d.params ∧
        compile t settings d.params d.body = .ok g.program := by
  -- Every body sees the one table `t`, which offers the group before any of it is compiled.
  induction group generalizing functions with
  | nil =>
      cases compiled
      simp
  | cons d group ih =>
      rw [compileAll] at compiled
      split at compiled
      · cases compiled
      · next program body =>
          split at compiled
          · cases compiled
          · next rest others =>
              obtain rfl := Except.ok.inj compiled
              obtain ⟨same, each⟩ := ih others
              constructor
              · simp [same]
              · intro i g inside
                cases i with
                | zero =>
                    obtain rfl : _ = g := by simpa using inside
                    exact ⟨d, rfl, rfl, rfl, body⟩
                | succ i => exact each i g inside

/-- A compositor knows the members of a group by the numbers it gave them, and every other name as
before. -/
theorem lookup_remember (number : Nat) (known : List (String × Nat))
    (distinct : (group.map Definition.name).Nodup) :
    (∀ (i : Nat) (d : Definition), group[i]? = some d →
      (remember known number group).lookup d.name = some (number + i)) ∧
    ∀ name ∉ group.map Definition.name,
      (remember known number group).lookup name = known.lookup name := by
  induction group generalizing number known with
  | nil => simp [remember]
  | cons d group ih =>
      rw [List.map_cons, List.nodup_cons] at distinct
      obtain ⟨members, others⟩ :=
        ih (number + 1) (Named.put d.name number known) distinct.2
      constructor
      · intro i e inside
        cases i with
        | zero =>
            obtain rfl : d = e := by simpa using inside
            rw [remember, others d.name distinct.1, Named.lookup_put_self, Nat.add_zero]
        | succ i =>
            rw [remember, members i e inside, Nat.add_assoc, Nat.add_comm 1]
      · intro name other
        rw [List.map_cons, List.mem_cons, not_or] at other
        rw [remember, others name other.2, Named.lookup_put_of_ne other.1]

/-- A group is declared as a whole, or the table is again what it was before the first of it. -/
theorem declare_ends {before : List Definition} (declared : Declared base number before t) :
    Ends (declare (number + before.length) before group) t
      (fun _ => Declared base number (before ++ group)) fun _ t' => t' = base := by
  induction group generalizing before t with
  | nil =>
      rw [List.append_nil]
      exact ends_pure declared
  | cons d group ih =>
      unfold Ends declare
      cases inserted : t.insert d.name
          (.function (.composed (number + before.length) d.params.length)) with
      | error e => exact declared.undone
      | ok t' =>
          have later := ih (declared.concat inserted)
          rw [List.length_append, List.length_singleton, ← Nat.add_assoc,
            List.append_assoc] at later
          exact later

/-- A group is registered when all of it can be declared and compiled. A table that refused it is
what it was. -/
theorem add_ends (c : Compositor) (functions : Array Composed) (group : List Definition)
    (t : Table) :
    Ends (add c functions group) t
      (fun (c', functions') t' => Declared t functions.size group t' ∧
        (∀ d ∈ group, d.refusal? = none) ∧
        c' = { c with known := remember c.known functions.size group } ∧
        ∃ compiled, compileAll t' c.settings group = .ok compiled ∧
          functions' = functions ++ compiled.toArray)
      fun _ t' => t' = t := by
  unfold Ends add
  cases valid : group.findSome? Definition.refusal? with
  | some e => rfl
  | none =>
      have ends : Ends (declare functions.size [] group) t
          (fun _ => Declared t functions.size group) fun _ t' => t' = t :=
        declare_ends (Declared.nil t functions.size)
      dsimp only
      cases declared : declare functions.size [] group t with
      | error e t' => exact ends.of_error declared
      | ok u t' =>
          have whole := ends.of_ok declared
          dsimp only
          cases bodies : compileAll t' c.settings group with
          | error ds => exact whole.undone
          | ok compiled =>
              exact ⟨whole, List.findSome?_eq_none_iff.mp valid, rfl, compiled, bodies, rfl⟩

end

end Compositor

end MathScript
