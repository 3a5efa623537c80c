import MathScript.Evaluate
import MathScript.Proofs.Flow
import MathScript.Proofs.Kinds

/-!
What the steps of the machine write. A step leaves every place as it is but for the one it is
told to write, and no step but a declaration changes the kind or the length of what a slot
holds, as long as the binding it works on is in place; host vectors keep their lengths under
every step. What a step yields has the kind its binding or target tells.
-/

namespace MathScript

/-- What stays of a value that is written over: its kind, and of a vector the length. -/
def Value.form (v : Value) : Option Kind × Nat := (v.kind?, v.asVector.size)

/-- What is written to one of the places is written to the other. -/
def Place.Shares : Place → Place → Prop
  | .slot i _, .slot j _ => i = j
  | p, q => p = q

theorem Place.Shares.slot {p : Place} {i : Nat} {kind : Kind} (shares : p.Shares (.slot i kind)) :
    ∃ kind', p = .slot i kind' := by
  cases p with
  | slot j kind' => exact ⟨kind', congrArg (Place.slot · kind') shares⟩
  | scalar | constant | vector | string => cases shares

theorem Place.Shares.host {p q : Place} (shares : p.Shares q) (host : q.isHost = true) : p = q := by
  cases p <;> cases q <;> first | exact shares | cases host

namespace Machine

/-- The form of what slot `i` holds, if it is one of the frame. -/
def formAt (m : Machine) (i : Nat) : Option (Option Kind × Nat) := m.locals[i]?.map Value.form

/-- The kind of what slot `i` holds: none outside of the frame, none of a kind for null. -/
def kindAt (m : Machine) (i : Nat) : Option (Option Kind) := m.locals[i]?.map Value.kind?

theorem kindAt_eq (m : Machine) (i : Nat) : m.kindAt i = (m.formAt i).map Prod.fst := by
  rw [kindAt, formAt, Option.map_map]
  rfl

/-- Nothing but the places `written` has changed, and slots and host vectors have kept their
forms; the host has as many numbers and strings as before. -/
structure Still (written : Place → Prop) (m m' : Machine) : Prop where
  forms : ∀ i, m'.formAt i = m.formAt i
  lengths : ∀ c, (m'.store.vector c).size = (m.store.vector c).size
  cells : m'.store.scalars.size = m.store.scalars.size ∧
    m'.store.strings.size = m.store.strings.size
  places : ∀ p, ¬ written p → m'.read p = m.read p

/-- A local is in its slot. -/
def Has (m : Machine) (b : Binding) : Prop :=
  match b.place with
  | .slot i kind => m.kindAt i = some (some kind)
  | _ => True

namespace Still

variable {written written' : Place → Prop} {m m' m'' : Machine}

theorem refl (m : Machine) : Still written m m :=
  ⟨fun _ => rfl, fun _ => rfl, ⟨rfl, rfl⟩, fun _ _ => rfl⟩

theorem trans (first : Still written m m') (second : Still written m' m'') :
    Still written m m'' where
  forms i := (second.forms i).trans (first.forms i)
  lengths c := (second.lengths c).trans (first.lengths c)
  cells := ⟨second.cells.1.trans first.cells.1, second.cells.2.trans first.cells.2⟩
  places p outside := (second.places p outside).trans (first.places p outside)

theorem mono (still : Still written m m') (more : ∀ p, written p → written' p) :
    Still written' m m' :=
  { still with places := fun p outside => still.places p fun inside => outside (more p inside) }

theorem kinds (still : Still written m m') (i : Nat) : m'.kindAt i = m.kindAt i := by
  rw [kindAt_eq, kindAt_eq, still.forms]

/-- What is no place of the program may change. -/
theorem of_places (locals : m'.locals = m.locals) (scalars : m'.store.scalars = m.store.scalars)
    (vectors : m'.store.vectors = m.store.vectors) (strings : m'.store.strings = m.store.strings) :
    Still written m m' where
  forms i := by rw [formAt, formAt, locals]
  lengths c := by rw [Store.vector, Store.vector, vectors]
  cells := ⟨congrArg Array.size scalars, congrArg Array.size strings⟩
  places p _ := by
    cases p <;> simp only [read, slot, Store.scalar, Store.vector, Store.string, locals, scalars,
      vectors, strings]

end Still

theorem Has.still {written : Place → Prop} {m m' : Machine} {b : Binding} (has : m.Has b)
    (still : Still written m m') : m'.Has b := by
  unfold Has at *
  cases place_eq : b.place with
  | slot i kind =>
      rw [place_eq] at has
      exact (still.kinds i).trans has
  | scalar | constant | vector | string => trivial

/-- What is in place reads as a value of its kind. -/
theorem Has.read_kind {m : Machine} {b : Binding} (has : m.Has b) :
    (m.read b.place).kind? = some b.kind := by
  unfold Has at has
  unfold Binding.kind
  cases place_eq : b.place with
  | slot i kind =>
      simp only [place_eq, kindAt, Option.map_eq_some_iff] at has
      obtain ⟨v, found, kind_eq⟩ := has
      simpa [read, slot, Array.getD_eq_getD_getElem?, found, Place.kind] using kind_eq
  | scalar | constant | vector | string => rfl

/-! ### Writing a slot -/

theorem still_modify {m : Machine} {i : Nat} {kind : Kind} {f : Value → Value}
    (same : ∀ v, m.locals[i]? = some v → (f v).form = v.form) :
    Still (Place.Shares (.slot i kind)) m { m with locals := m.locals.modify i f } where
  forms j := by
    simp only [formAt, Array.getElem?_modify]
    split
    · next at_ =>
        subst at_
        cases found : m.locals[i]? with
        | none => rfl
        | some v => simp [same v found]
    · rfl
  lengths _ := rfl
  cells := ⟨rfl, rfl⟩
  places p outside := by
    cases p with
    | slot j kind' =>
        have apart : i ≠ j := outside
        simp [read, slot, Array.getD_eq_getD_getElem?, Array.getElem?_modify, apart]
    | scalar | constant | vector | string => rfl

theorem still_set {m : Machine} {i : Nat} {kind : Kind} {v : Value}
    (same : ∀ w, m.locals[i]? = some w → v.form = w.form) :
    Still (Place.Shares (.slot i kind)) m { m with locals := m.locals.setIfInBounds i v } := by
  have modified : Still (Place.Shares (.slot i kind)) m
      { m with locals := m.locals.modify i fun _ => v } :=
    still_modify same
  have locals_eq : m.locals.setIfInBounds i v = m.locals.modify i fun _ => v := by
    apply Array.ext_getElem?
    intro j
    rw [Array.getElem?_setIfInBounds, Array.getElem?_modify]
    split
    · next at_ =>
        subst at_
        split <;> simp_all
    · rfl
  rwa [locals_eq]

/-! ### Writing a place -/

theorem cells_apart {kind : Kind} {c d : Cell kind} (apart : c ≠ d) : c.index ≠ d.index :=
  fun same => apart (by cases c; cases d; simp_all)

variable (m : Machine)

theorem still_modifyVector (p : Place) {f : Array Float → Array Float}
    (kept : ∀ xs, (f xs).size = xs.size) : Still p.Shares m (m.modifyVector p f) := by
  cases p with
  | slot i kind =>
      apply still_modify
      intro v _
      cases v with
      | vector xs => simp [Value.form, Value.kind?, Value.asVector, kept]
      | null | scalar | string => rfl
  | vector c =>
      refine ⟨fun _ => rfl, fun d => ?_, ⟨rfl, rfl⟩, fun q outside => ?_⟩
      · simp only [modifyVector, Store.modifyVector, Store.vector, Array.getD_eq_getD_getElem?,
          Array.getElem?_modify]
        split
        · cases m.store.vectors[d.index]? <;> simp [kept]
        · rfl
      · cases q with
        | vector d =>
            have apart := cells_apart fun same => outside (congrArg Place.vector same)
            simp [read, modifyVector, Store.modifyVector, Store.vector,
              Array.getD_eq_getD_getElem?, Array.getElem?_modify, apart]
        | scalar | constant | string | slot => rfl
  | scalar | constant | string => exact Still.refl m

theorem still_modifyString (p : Place) (f : String → String) :
    Still p.Shares m (m.modifyString p f) := by
  cases p with
  | slot i kind =>
      apply still_modify
      intro v _
      cases v <;> rfl
  | string c =>
      refine ⟨fun _ => rfl, fun _ => rfl, ⟨rfl, Array.size_modify⟩, fun q outside => ?_⟩
      cases q with
      | string d =>
          have apart := cells_apart fun same => outside (congrArg Place.string same)
          simp [read, modifyString, Store.modifyString, Store.string,
            Array.getD_eq_getD_getElem?, Array.getElem?_modify, apart]
      | scalar | constant | vector | slot => rfl
  | scalar | constant | vector => exact Still.refl m

variable {m}

theorem still_setScalar {b : Binding} (has : m.Has b) (scalar : b.kind = .scalar) (x : Float) :
    Still b.place.Shares m (m.setScalar b.place x) := by
  unfold Has at has
  unfold Binding.kind at scalar
  cases place_eq : b.place with
  | slot i kind =>
      simp only [place_eq, Place.kind] at has scalar
      subst scalar
      apply still_set
      intro w found
      have known : w.kind? = some .scalar := by simpa [kindAt, found] using has
      -- Every number has the form of every other.
      cases w <;> first | rfl | cases known
  | scalar c =>
      refine ⟨fun _ => rfl, fun _ => rfl, ⟨Array.size_setIfInBounds, rfl⟩, fun q outside => ?_⟩
      cases q with
      | scalar d =>
          have apart := cells_apart fun same => outside (congrArg Place.scalar same)
          simp [read, setScalar, Store.setScalar, Store.scalar, Array.getD_eq_getD_getElem?, apart]
      | constant | vector | string | slot => rfl
  | constant | vector | string => exact Still.refl m

end Machine

open Machine

/-- A step that writes no other places, with what its value is told to be. -/
def Stays {α : Type} (written : Place → Prop) (x : Eval α) (m : Machine) (value : α → Prop) :
    Prop :=
  Ends x m (fun a m' => Still written m m' ∧ value a) fun _ m' => Still written m m'

section

variable {α β : Type} {written written' : Place → Prop} {m : Machine}

theorem stays_pure {value : α → Prop} {a : α} (told : value a) :
    Stays written (pure a) m value :=
  ends_pure ⟨Still.refl m, told⟩

theorem stays_modify {f : Machine → Machine} (still : Still written m (f m)) :
    Stays written (modify f) m fun _ => True :=
  ends_modify ⟨still, trivial⟩

theorem stays_bind {x : Eval α} {f : α → Eval β} {value : α → Prop} {value' : β → Prop}
    (first : Stays written x m value)
    (rest : ∀ a m', Still written m m' → value a → Stays written (f a) m' value') :
    Stays written (x >>= f) m value' := by
  refine ends_bind (first.mono (fun a m' after => ?_) fun _ _ => id)
  exact (rest a m' after.1 after.2).mono (fun b m'' later => ⟨after.1.trans later.1, later.2⟩)
    fun e m'' later => after.1.trans later

theorem Stays.writing {x : Eval α} {value : α → Prop} (stays : Stays written x m value)
    (more : ∀ p, written p → written' p) : Stays written' x m value :=
  Ends.mono stays (fun _ _ after => ⟨after.1.mono more, after.2⟩) fun _ _ still => still.mono more

end

/-! ### Lengths -/

@[simp] theorem Range.size_refill (old new : Array Float) : (refill old new).size = old.size := by
  simp only [refill, Array.size_append, Array.size_extract]
  omega

@[simp] theorem Eval.size_combineVector (op : AssignOp) (old : Array Float) (v : Value) :
    (combineVector op old v).size = old.size := by
  cases v <;> simp [combineVector]

@[simp] theorem Eval.size_setElementAt (xs : Array Float) (index : Int) (x : Float) :
    (setElementAt xs index x).size = xs.size := by
  unfold setElementAt
  split <;> simp

namespace Eval

variable {written : Place → Prop} {m : Machine}

theorem stays_load {b : Binding} (has : m.Has b) :
    Stays written (load b) m fun v => v.kind? = some b.kind :=
  ⟨Still.refl m, has.read_kind⟩

theorem stays_vectorOf (b : Binding) : Stays written (vectorOf b) m fun _ => True :=
  ⟨Still.refl m, trivial⟩

theorem stays_stringOf (b : Binding) : Stays written (stringOf b) m fun _ => True :=
  ⟨Still.refl m, trivial⟩

theorem stays_report (check : Option Check) (b : Binding) (length : Nat) (index : Int) :
    Stays written (report check b length index) m fun _ => True := by
  cases check with
  | none => exact stays_pure trivial
  | some c =>
      -- The check and its memory are outside of the frame.
      have looked : Stays written (modifyGet fun m => (m.store.memory c.memory, m) : Eval Nat) m
          fun _ => True := ⟨Still.refl m, trivial⟩
      apply stays_bind looked
      intro kept m' _ _
      apply stays_bind (stays_modify (Still.of_places rfl rfl rfl rfl))
      intro _ m'' _ _
      cases (c.judge kept ⟨b.name, index, length⟩).1 with
      | none => exact stays_pure trivial
      | some f => exact ends_throw (Still.refl m'')

theorem stays_element? (check : Option Check) (b : Binding) (index : Float) :
    Stays written (element? check b index) m fun _ => True := by
  apply stays_bind (stays_vectorOf b)
  intro xs m' _ _
  cases elementAt? xs (Index.ofFloat index) with
  | some x => exact stays_pure trivial
  | none => exact stays_bind (stays_report check b _ _) fun _ _ _ _ => stays_pure trivial

theorem stays_element (check : Option Check) (b : Binding) (index : Float) :
    Stays written (element check b index) m fun v =>
      v.kind? = some (if b.kind = .string then .string else .scalar) := by
  unfold element
  cases kind_eq : b.kind with
  | string => exact stays_bind (stays_stringOf b) fun _ _ _ _ => stays_pure rfl
  | scalar | vector =>
      exact stays_bind (stays_element? check b index) fun _ _ _ _ => stays_pure rfl

theorem stays_reportBound (check : Option Check) (b : Binding) (length : Nat)
    (bound : Option Float) : Stays written (reportBound check b length bound) m fun _ => True := by
  cases bound with
  | none => exact stays_pure trivial
  | some x =>
      simp only [reportBound]
      split
      · exact stays_pure trivial
      · exact stays_report check b length _

theorem stays_slice (check : Option Check) (b : Binding) (first last : Option Float) :
    Stays written (slice check b first last) m fun v =>
      v.kind? = some (if b.kind = .string then .string else .vector) := by
  unfold slice
  cases kind_eq : b.kind with
  | string => exact stays_bind (stays_stringOf b) fun _ _ _ _ => stays_pure rfl
  | scalar | vector =>
      exact stays_bind (stays_vectorOf b) fun _ _ _ _ =>
        stays_bind (stays_reportBound check b _ first) fun _ _ _ _ =>
          stays_bind (stays_reportBound check b _ last) fun _ _ _ _ =>
            stays_bind (stays_vectorOf b) fun _ _ _ _ => stays_pure rfl

theorem stays_size (b : Binding) : Stays written (size b) m fun v => v.kind? = some .scalar := by
  unfold size
  cases b.kind with
  | vector => exact stays_bind (stays_vectorOf b) fun _ _ _ _ => stays_pure rfl
  | string => exact stays_bind (stays_stringOf b) fun _ _ _ _ => stays_pure rfl
  | scalar => exact stays_pure rfl

theorem stays_assignWhole {b : Binding} (has : m.Has b) (op : AssignOp) (v : Value) :
    Stays b.place.Shares (assignWhole b op v) m fun w => w.kind? = some b.kind := by
  unfold assignWhole
  cases kind_eq : b.kind with
  | scalar =>
      apply stays_bind (stays_load has)
      intro w m' still _
      exact stays_bind (stays_modify (still_setScalar (has.still still) kind_eq _))
        fun _ _ _ _ => stays_pure rfl
  | vector =>
      exact stays_bind (stays_modify (still_modifyVector m _ (by simp)))
        fun _ _ _ _ => stays_bind (stays_vectorOf b) fun _ _ _ _ => stays_pure rfl
  | string =>
      exact stays_bind (stays_modify (still_modifyString m _ _))
        fun _ _ _ _ => stays_bind (stays_stringOf b) fun _ _ _ _ => stays_pure rfl

theorem stays_assign {target : Target Float} (check : Option Check)
    (has : m.Has target.binding) (op : AssignOp) (v : Value) :
    Stays target.binding.place.Shares (assign check target op v) m
      fun w => w.kind? = some target.kind := by
  cases target with
  | whole b => exact stays_assignWhole has op v
  | element b index =>
      apply stays_bind (stays_element? check b index)
      intro current m' _ _
      cases current with
      | none => exact stays_pure rfl
      | some current =>
          exact stays_bind (stays_modify (still_modifyVector m' _ (by simp)))
            fun _ _ _ _ => stays_pure rfl
  | range b first last =>
      exact stays_bind (stays_modify (still_modifyString m _ _))
        fun _ _ _ _ => stays_bind (stays_stringOf b) fun _ _ _ _ => stays_pure rfl

theorem stays_readTarget {target : Target Float} (check : Option Check)
    (has : m.Has target.binding) :
    Stays written (readTarget check target) m
      fun v => ∀ w, v = some w → w.kind? = some target.kind := by
  cases target with
  | whole b =>
      apply stays_bind (stays_load has)
      intro v _ _ known
      apply stays_pure
      rintro w ⟨⟩
      exact known
  | element b index =>
      apply stays_bind (stays_element? check b index)
      intro x _ _ _
      apply stays_pure
      intro w found
      obtain ⟨y, -, rfl⟩ := Option.map_eq_some_iff.mp found
      rfl
  | range b first last =>
      apply stays_bind (stays_stringOf b)
      intro s _ _ _
      apply stays_pure
      rintro w ⟨⟩
      rfl

/-- A whole variable is written as what the value is, null as a number. -/
theorem stays_writeTarget {target : Target Float} (has : m.Has target.binding) {v : Value}
    (suits : ∀ b, target = .whole b → v.kind?.getD .scalar = b.kind) :
    Stays target.binding.place.Shares (writeTarget target v) m fun _ => True := by
  cases target with
  | whole b =>
      apply stays_modify
      have kind_eq := suits b rfl
      cases v with
      | null | scalar => exact still_setScalar has kind_eq.symm _
      | vector xs => exact still_modifyVector m b.place (by simp)
      | string s => exact still_modifyString m b.place _
  | element b index => exact stays_modify (still_modifyVector m _ (by simp))
  | range b first last => exact stays_modify (still_modifyString m _ _)

theorem stays_callNumeric (host : Host) (native : Nat) (args : List Value) :
    Stays written (callNumeric host native args) m fun v => v.Fits .scalar := by
  unfold Stays Ends callNumeric
  match host.natives[native]? with
  | none => exact ⟨Still.refl m, .inl rfl⟩
  | some ⟨.scalar _ run, memory⟩ => exact ⟨Still.of_places rfl rfl rfl rfl, .inr rfl⟩
  | some ⟨.vararg run, memory⟩ => exact ⟨Still.of_places rfl rfl rfl rfl, .inr rfl⟩
  | some ⟨.generic _ run, memory⟩ => exact ⟨Still.refl m, .inl rfl⟩

theorem stays_ask (host : Host) (native overload : Nat) (args : List Value) :
    Stays written (ask host native overload args) m fun _ => True := by
  unfold Stays Ends ask
  match host.natives[native]? with
  | none => exact ⟨Still.refl m, trivial⟩
  | some ⟨.scalar _ run, memory⟩ => exact ⟨Still.refl m, trivial⟩
  | some ⟨.vararg run, memory⟩ => exact ⟨Still.refl m, trivial⟩
  | some ⟨.generic _ run, memory⟩ => exact ⟨Still.of_places rfl rfl rfl rfl, trivial⟩

theorem stays_writeBack {p : Param} {b : Binding} (has : m.Has b) (same : p.kind = b.kind) :
    Stays b.place.Shares (modify (writeBack [p] [some b])) m fun _ => True := by
  apply stays_modify
  cases p with
  | scalar x =>
      have scalar : b.kind = .scalar := same.symm
      simpa only [writeBack, scalar] using still_setScalar has scalar x
  | vector xs =>
      have vector : b.kind = .vector := same.symm
      have still := still_modifyVector m b.place fun old => Range.size_refill old xs
      simpa only [writeBack, vector] using still
  | string s =>
      have string : b.kind = .string := same.symm
      simpa only [writeBack, string] using still_modifyString m b.place _

end Eval

end MathScript
