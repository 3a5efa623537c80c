import MathScript.Proofs.Bearing
import MathScript.Proofs.Lengths

/-!
Copies of variables that are written back. A variable has room for a value if it is no longer or
shorter than what the variable holds; every value it ever held is such a one, for no evaluation
changes the length of a vector, and what is written back then replaces all of what it holds. Written
back one after another, of several copies for one storage the last one stays.
-/

namespace MathScript

open Machine Tree

/-! ### Room -/

/-- The host has as many numbers and strings as in the store, and vectors as long; a vector in a
slot is as long as told. -/
structure Machine.Sized (store : Store) (lengths : Nat → Nat) (m : Machine) : Prop where
  hosts : ∀ c, (m.store.vector c).size = (store.vector c).size
  cells : m.store.scalars.size = store.scalars.size ∧ m.store.strings.size = store.strings.size
  slots : ∀ i n, m.formAt i = some (some .vector, n) → n = lengths i

/-- The place has room for the value: written to it, nothing of the value is lost and nothing of
what was there is left. -/
def Place.Takes (store : Store) (lengths : Nat → Nat) : Place → Value → Prop
  | .scalar c, v => c.index < store.scalars.size ∨ v = .scalar 0
  | .constant x, v => v = .scalar x
  | .string c, v => c.index < store.strings.size ∨ v = .string ""
  | .vector c, v => ∀ xs, v = .vector xs → xs.size = (store.vector c).size
  | .slot i _, v => ∀ xs, v = .vector xs → xs.size = lengths i

namespace Machine.Sized

variable {store : Store} {lengths : Nat → Nat} {m m' : Machine} {written : Place → Prop}

theorem still (sized : m.Sized store lengths) (still : Still written m m') :
    m'.Sized store lengths where
  hosts c := (still.lengths c).trans (sized.hosts c)
  cells := ⟨still.cells.1.trans sized.cells.1, still.cells.2.trans sized.cells.2⟩
  slots i n found := sized.slots i n (by rwa [← still.forms])

theorem placewise : Placewise (Sized store lengths) := fun _ _ still sized => sized.still still

/-- A slot with a number in it has no vector in it. -/
theorem modifyLocals (sized : m.Sized store lengths) {i : Nat} {v : Value}
    (fits : ∀ xs, v = .vector xs → xs.size = lengths i) :
    Sized store lengths { m with locals := m.locals.setIfInBounds i v } where
  hosts := sized.hosts
  cells := sized.cells
  slots j n found := by
    simp only [formAt, Array.getElem?_setIfInBounds] at found
    by_cases at_ : i = j
    · subst at_
      rw [if_pos rfl] at found
      split at found
      · cases v <;> simp_all [Value.form, Value.kind?, Value.asVector]
      · cases found
    · rw [if_neg at_] at found
      exact sized.slots j n found

theorem setScalar (sized : m.Sized store lengths) (p : Place) (x : Float) :
    (m.setScalar p x).Sized store lengths := by
  cases p with
  | slot i kind => exact sized.modifyLocals (by simp)
  | scalar c =>
      exact ⟨sized.hosts, ⟨Array.size_setIfInBounds.trans sized.cells.1, sized.cells.2⟩,
        sized.slots⟩
  | constant | vector | string => exact sized

theorem bears (p : Place) : Bears (Sized store lengths) p where
  setScalar _ x sized := sized.setScalar p x
  modifyVector m _ kept sized := sized.still (still_modifyVector m p kept)
  modifyString m f sized := sized.still (still_modifyString m p f)

theorem read_vector (sized : m.Sized store lengths) {i : Nat} {xs : Array Float}
    (found : m.slot i = .vector xs) : xs.size = lengths i := by
  refine sized.slots i xs.size ?_
  rw [formAt]
  rw [slot, Array.getD_eq_getD_getElem?] at found
  cases at_ : m.locals[i]? with
  | none =>
      rw [at_] at found
      cases found
  | some v =>
      rw [at_] at found
      obtain rfl : v = .vector xs := found
      rfl

/-- What a place holds it has room for. -/
theorem takes (sized : m.Sized store lengths) (p : Place) :
    p.Takes store lengths (m.read p) := by
  cases p with
  | scalar c =>
      by_cases inside : c.index < store.scalars.size
      · exact .inl inside
      · right
        rw [← sized.cells.1] at inside
        rw [read, Store.scalar, Array.getD_eq_getD_getElem?, Array.getElem?_eq_none (by omega)]
        rfl
  | constant x => rfl
  | string c =>
      by_cases inside : c.index < store.strings.size
      · exact .inl inside
      · right
        rw [← sized.cells.2] at inside
        rw [read, Store.string, Array.getD_eq_getD_getElem?, Array.getElem?_eq_none (by omega)]
        rfl
  | vector c =>
      rintro xs same
      obtain rfl := Value.vector.inj same
      exact sized.hosts c
  | slot i kind => exact fun xs found => sized.read_vector found

end Machine.Sized

/-! ### Copies that are written back -/

/-- What a variable holds once the parameter has been written back. -/
def Param.value : Param → Value
  | .scalar x => .scalar x
  | .vector xs => .vector xs
  | .string s => .string s

/-- A value of some kind is copied as it is. -/
theorem Param.value_ofValue {v : Value} {kind : Kind} (known : v.kind? = some kind) :
    (Param.ofValue v).value = v := by
  cases v <;> first | rfl | cases known

theorem Range.refill_same {old new : Array Float} (same : new.size = old.size) :
    refill old new = new := by
  rw [refill, same, ← same, Array.extract_size,
    Array.extract_empty_of_size_le_start (Nat.le_of_eq same.symm), Array.append_empty]

/-- All vectors that a place has room for are equally long. -/
theorem Place.Takes.size_eq {store : Store} {lengths : Nat → Nat} {p : Place}
    (vector : p.kind = .vector) {xs ys : Array Float} (takes : p.Takes store lengths (.vector xs))
    (takes' : p.Takes store lengths (.vector ys)) : xs.size = ys.size := by
  cases p with
  | vector | slot => exact (takes xs rfl).trans (takes' ys rfl).symm
  | scalar | constant | string => cases vector

namespace Machine

variable {store : Store} {lengths : Nat → Nat} {m : Machine} {p q : Place} {b : Binding}

theorem read_shares (shares : p.Shares q) (m : Machine) : m.read p = m.read q := by
  cases p with
  | slot i kind =>
      obtain ⟨j, kind', rfl⟩ : ∃ j kind', q = .slot j kind' := by
        cases q <;> first | exact ⟨_, _, rfl⟩ | cases shares
      obtain rfl : i = j := shares
      rfl
  | scalar | constant | vector | string =>
      cases q <;> cases shares
      rfl

theorem Has.of_still {written : Place → Prop} {m' : Machine} (has : m'.Has b)
    (still : Still written m m') : m.Has b := by
  unfold Has at *
  cases place_eq : b.place with
  | slot i kind =>
      rw [place_eq] at has
      exact (still.kinds i).symm.trans has
  | scalar | constant | vector | string => trivial

theorem Has.slot_eq {i : Nat} {kind : Kind} (has : m.Has b) (own : b.place = .slot i kind) :
    ∃ v, m.locals[i]? = some v ∧ v.kind? = some kind := by
  rw [Has, own] at has
  exact Option.map_eq_some_iff.mp has

theorem read_setScalar (sized : m.Sized store lengths) (has : m.Has b) (kind : b.kind = .scalar)
    {x : Float} (takes : b.place.Takes store lengths (.scalar x)) :
    (m.setScalar b.place x).read b.place = .scalar x := by
  cases own : b.place with
  | scalar c =>
      rw [own] at takes
      change Value.scalar ((m.store.scalars.setIfInBounds c.index x).getD c.index 0) = _
      rcases takes with inside | same
      · rw [← sized.cells.1] at inside
        simp [inside]
      · obtain rfl := Value.scalar.inj same
        rw [Array.getD_eq_getD_getElem?, Array.getElem?_setIfInBounds, if_pos rfl]
        split <;> rfl
  | constant y =>
      rw [own] at takes
      exact takes.symm
  | slot i kind =>
      obtain ⟨w, found, -⟩ := has.slot_eq own
      obtain ⟨inside, -⟩ := Array.getElem?_eq_some_iff.mp found
      simp [setScalar, read, slot, inside]
  | vector | string =>
      rw [Binding.kind, own] at kind
      cases kind

theorem read_setString (sized : m.Sized store lengths) (has : m.Has b) (kind : b.kind = .string)
    {s : String} (takes : b.place.Takes store lengths (.string s)) :
    (m.modifyString b.place fun _ => s).read b.place = .string s := by
  rw [Binding.kind] at kind
  cases own : b.place with
  | string c =>
      rw [own] at takes
      change Value.string ((m.store.strings.modify c.index fun _ => s).getD c.index "") = _
      rw [Array.getD_eq_getD_getElem?, Array.getElem?_modify, if_pos rfl]
      rcases takes with inside | same
      · rw [← sized.cells.2] at inside
        simp [inside]
      · obtain rfl := Value.string.inj same
        cases m.store.strings[c.index]? <;> rfl
  | slot i kind' =>
      rw [own] at kind
      obtain rfl : kind' = .string := kind
      obtain ⟨w, found, known⟩ := has.slot_eq own
      obtain ⟨old, rfl⟩ : ∃ old, w = .string old := by
        cases w <;> first | exact ⟨_, rfl⟩ | cases known
      simp [modifyString, read, slot, Array.getD_eq_getD_getElem?, Array.getElem?_modify, found]
  | scalar | constant | vector =>
      rw [own] at kind
      cases kind

theorem read_setVector (sized : m.Sized store lengths) (has : m.Has b) (kind : b.kind = .vector)
    {xs : Array Float} (takes : b.place.Takes store lengths (.vector xs)) :
    (m.modifyVector b.place fun old => Range.refill old xs).read b.place = .vector xs := by
  have still := still_modifyVector m b.place fun old => Range.size_refill old xs
  have held := sized.takes b.place
  rw [has.read_vector kind] at held
  rw [(has.still still).read_vector kind, vectorAt_modify m _ fun old => Range.size_refill old xs,
    Range.refill_same (takes.size_eq kind held)]

/-- A copy of the kind of its variable replaces what the variable holds, under all its names. -/
theorem read_copied (sized : m.Sized store lengths) (has : m.Has b) {copy : Param}
    (kind : copy.kind = b.kind) (takes : b.place.Takes store lengths copy.value) (p : Place) :
    (Eval.writeBack [copy] [some b] m).read p =
      if b.place.Shares p then copy.value else m.read p := by
  by_cases shares : b.place.Shares p
  · rw [if_pos shares, ← read_shares shares]
    cases copy with
    | scalar x =>
        have own : b.kind = .scalar := kind.symm
        simpa only [Eval.writeBack, own, Param.value] using read_setScalar sized has own takes
    | vector xs =>
        have own : b.kind = .vector := kind.symm
        simpa only [Eval.writeBack, own, Param.value] using read_setVector sized has own takes
    | string s =>
        have own : b.kind = .string := kind.symm
        simpa only [Eval.writeBack, own, Param.value] using read_setString sized has own takes
  · rw [if_neg shares]
    exact (Eval.stays_writeBack has kind).1.places p shares

end Machine

/-- The copies of what has the storage of a place that are written back, in their order. A copy of
another kind than its variable is not. -/
def copies (writeback : List (Option Binding)) (params : List Param) (p : Place) : List Value :=
  ((writeback.zip params).filter fun w =>
    w.1.any fun b => b.place.Shares p && w.2.kind == b.kind).map fun w => w.2.value

theorem copies_cons (b : Binding) (writeback : List (Option Binding)) (copy : Param)
    (params : List Param) (p : Place) :
    copies (some b :: writeback) (copy :: params) p =
      if b.place.Shares p ∧ copy.kind = b.kind then copy.value :: copies writeback params p
      else copies writeback params p := by
  simp only [copies, List.zip_cons_cons, List.filter_cons, Option.any_some, Bool.and_eq_true,
    decide_eq_true_eq, beq_iff_eq]
  split <;> rfl

/-- Each is a parameter for a variable that has that storage. -/
theorem mem_copies {writeback : List (Option Binding)} {params : List Param} {p : Place} {v : Value}
    (member : v ∈ copies writeback params p) :
    ∃ (i : Nat) (b : Binding) (copy : Param), writeback[i]? = some (some b) ∧
      params[i]? = some copy ∧ b.place.Shares p ∧ copy.kind = b.kind ∧ v = copy.value := by
  obtain ⟨⟨own, copy⟩, inside, rfl⟩ := List.mem_map.mp member
  obtain ⟨zipped, fits⟩ := List.mem_filter.mp inside
  obtain ⟨i, found⟩ := List.mem_iff_getElem?.mp zipped
  obtain ⟨found, found'⟩ := List.getElem?_zip_eq_some.mp found
  cases own with
  | none => cases fits
  | some b =>
      simp only [Option.any_some, Bool.and_eq_true, decide_eq_true_eq, beq_iff_eq] at fits
      exact ⟨i, b, copy, found, found', fits.1, fits.2, rfl⟩

/-- The copies that are written back are of variables in place, which have room for them. -/
def Copied (store : Store) (lengths : Nat → Nat) (m : Machine) (writeback : List (Option Binding))
    (params : List Param) : Prop :=
  ∀ (i : Nat) (b : Binding) (copy : Param), writeback[i]? = some (some b) →
    params[i]? = some copy → copy.kind = b.kind →
    m.Has b ∧ b.place.Takes store lengths copy.value

theorem Copied.still {store : Store} {lengths : Nat → Nat} {m m' : Machine}
    {writeback : List (Option Binding)} {params : List Param} {written : Place → Prop}
    (copied : Copied store lengths m writeback params) (still : Still written m m') :
    Copied store lengths m' writeback params := fun i b copy found found' kind =>
  have ⟨has, takes⟩ := copied i b copy found found' kind
  ⟨has.still still, takes⟩

/-- Behind all copies a place holds the last one for its storage, or what it held. -/
theorem read_writeBack {store : Store} {lengths : Nat → Nat} {m : Machine}
    {writeback : List (Option Binding)} {params : List Param} (sized : m.Sized store lengths)
    (copied : Copied store lengths m writeback params) (p : Place) :
    (Eval.writeBack params writeback m).read p =
      (copies writeback params p).getLast?.getD (m.read p) := by
  induction params generalizing writeback m with
  | nil => cases writeback <;> simp [copies, Eval.writeBack]
  | cons copy params ih =>
      cases writeback with
      | nil => rfl
      | cons own writeback =>
          have others : Copied store lengths m writeback params := fun i => copied (i + 1)
          cases own with
          | none => exact ih sized others
          | some b =>
              rw [Tape.writeBack_step, copies_cons]
              by_cases kind : copy.kind = b.kind
              · obtain ⟨has, takes⟩ := copied 0 b copy rfl rfl kind
                have still := (Eval.stays_writeBack has kind).1
                rw [ih (sized.still still) (others.still still), read_copied sized has kind takes]
                by_cases shares : b.place.Shares p
                · rw [if_pos shares, if_pos ⟨shares, kind⟩, List.getLast?_cons]
                  rfl
                · rw [if_neg shares, if_neg fun both => shares both.1]
              · rw [Tape.writeBack_other_kind kind, if_neg fun both => kind both.2]
                exact ih sized others

end MathScript
