import MathScript.Proofs.Pages

/-!
Lengths of vectors. No evaluation changes the length of a vector: a variable of the host keeps the
one it has, a local the one it is declared with. What is longer than the variable it is written to
is cut off, and behind what is shorter the variable stays as it was.
-/

namespace MathScript

/-! ### Writing over a vector -/

/-- A vector written over with another: as long as before, and as before behind the shorter. -/
structure WrittenOver (old new after : Array Float) : Prop where
  size : after.size = old.size
  rest : ∀ i, new.size ≤ i → after[i]? = old[i]?

theorem writtenOver_refill (old : Array Float) {new part : Array Float}
    (shorter : part.size ≤ new.size) : WrittenOver old new (Range.refill old part) where
  size := Range.size_refill old part
  rest i beyond := by
    have front : (part.extract 0 old.size).size ≤ i := by
      rw [Array.size_extract]
      omega
    rw [Range.refill, Array.getElem?_append_right front, Array.getElem?_extract, Array.size_extract]
    by_cases inside : i < old.size
    · rw [if_pos (by omega)]
      congr 1
      omega
    · rw [if_neg (by omega), Array.getElem?_eq_none (by omega)]

theorem writtenOver_combine (op : AssignOp) (old new : Array Float) :
    WrittenOver old new (Eval.combineVector op old (.vector new)) :=
  writtenOver_refill old (by rw [Array.size_zipWith]; omega)

theorem writtenOver_longer {old new after : Array Float} (size : after.size = old.size)
    (longer : old.size ≤ new.size) : WrittenOver old new after where
  size := size
  rest i beyond := by rw [Array.getElem?_eq_none (by omega), Array.getElem?_eq_none (by omega)]

namespace Machine

variable {m : Machine} {p q : Place}

/-- What is written as a vector reads as what was written, as long as no length changes. -/
theorem vectorAt_modify (m : Machine) (p : Place) {f : Array Float → Array Float}
    (kept : ∀ xs, (f xs).size = xs.size) :
    (m.modifyVector p f).vectorAt p = f (m.vectorAt p) := by
  have empty : f #[] = #[] := Array.eq_empty_of_size_eq_zero (kept #[])
  cases p with
  | vector c =>
      simp only [vectorAt, read, modifyVector, Store.modifyVector, Store.vector,
        Array.getD_eq_getD_getElem?, Array.getElem?_modify]
      cases m.store.vectors[c.index]? <;> simp [empty]
  | slot i kind =>
      simp only [vectorAt, read, modifyVector, slot, Array.getD_eq_getD_getElem?,
        Array.getElem?_modify]
      cases found : m.locals[i]? with
      | none => simp [empty]
      | some v => cases v <;> simp [empty]
  | scalar | constant | string => exact empty.symm

theorem modify_congr {α : Type} {xs : Array α} {i : Nat} {f g : α → α}
    (same : ∀ x, xs[i]? = some x → f x = g x) : xs.modify i f = xs.modify i g := by
  apply Array.ext_getElem?
  intro j
  rw [Array.getElem?_modify, Array.getElem?_modify]
  split
  · next at_ =>
    subst at_
    cases found : xs[i]? with
    | none => rfl
    | some x => simp [same x found]
  · rfl

/-- What is written depends only on what is written over. -/
theorem modifyVector_congr {f g : Array Float → Array Float}
    (same : f (m.vectorAt p) = g (m.vectorAt p)) : m.modifyVector p f = m.modifyVector p g := by
  cases p with
  | vector c =>
      have cells : m.store.vectors.modify c.index f = m.store.vectors.modify c.index g :=
        modify_congr fun xs found => by
          simpa [vectorAt, read, Store.vector, Array.getD_eq_getD_getElem?, found] using same
      simp only [modifyVector, Store.modifyVector, cells]
  | slot i kind =>
      simp only [modifyVector]
      congr 1
      refine modify_congr fun v found => ?_
      cases v with
      | vector xs =>
          simpa [vectorAt, read, slot, Array.getD_eq_getD_getElem?, found] using same
      | null | scalar | string => rfl
  | scalar | constant | string => rfl

theorem modifyString_congr {f g : String → String}
    (same : f (m.stringAt p) = g (m.stringAt p)) : m.modifyString p f = m.modifyString p g := by
  cases p with
  | string c =>
      have cells : m.store.strings.modify c.index f = m.store.strings.modify c.index g :=
        modify_congr fun s found => by
          simpa [stringAt, read, Value.asString, Store.string, Array.getD_eq_getD_getElem?, found]
            using same
      simp only [modifyString, Store.modifyString, cells]
  | slot i kind =>
      simp only [modifyString]
      congr 1
      refine modify_congr fun v found => ?_
      cases v with
      | string s =>
          simpa [stringAt, read, Value.asString, slot, Array.getD_eq_getD_getElem?, found]
            using same
      | null | scalar | vector => rfl
  | scalar | constant | vector => rfl

theorem vectorAt_apart (apart : ¬ p.Shares q) {f : Array Float → Array Float}
    (kept : ∀ xs, (f xs).size = xs.size) : (m.modifyVector p f).vectorAt q = m.vectorAt q := by
  rw [vectorAt, vectorAt, (still_modifyVector m p kept).places q apart]

theorem vectorAt_shares (shares : p.Shares q) (m : Machine) : m.vectorAt p = m.vectorAt q := by
  cases p with
  | slot i kind =>
      obtain ⟨j, kind', rfl⟩ : ∃ j kind', q = .slot j kind' := by
        cases q <;> first | exact ⟨_, _, rfl⟩ | cases shares
      obtain rfl : i = j := shares
      rfl
  | scalar | constant | vector | string =>
      cases q <;> cases shares
      rfl

theorem Has.read_vector {b : Binding} (has : m.Has b) (vector : b.kind = .vector) :
    m.read b.place = .vector (m.vectorAt b.place) := by
  have known := has.read_kind
  rw [vector] at known
  rw [vectorAt]
  cases value : m.read b.place <;> first | rfl | simp [value, Value.kind?] at known

/-- However a vector variable is written as a whole, it is written over; what a native function
leaves of another kind is not written at all. -/
structure Overwrites (m : Machine) (b : Binding) : Prop where
  assign : ∀ check op new, WrittenOver (m.vectorAt b.place) new
    ((lastState (Eval.assign check (.whole b) op (.vector new) m)).vectorAt b.place)
  writeBack : ∀ new, WrittenOver (m.vectorAt b.place) new
    ((Eval.writeBack [.vector new] [some b] m).vectorAt b.place)
  retyped : ∀ p : Param, p.kind ≠ .vector → Eval.writeBack [p] [some b] m = m
  swap : ∀ check c, c.kind = .vector → m.Has c →
    let m' := lastState (Eval.swap check (pure (.whole b)) (pure (.whole c)) m)
    WrittenOver (m.vectorAt b.place) (m.vectorAt c.place) (m'.vectorAt b.place) ∧
      WrittenOver (m.vectorAt c.place) (m.vectorAt b.place) (m'.vectorAt c.place)

theorem swap_overwrites (check : Option Check) {b c : Binding} (vector : b.kind = .vector)
    (vector' : c.kind = .vector) (has : m.Has b) (has' : m.Has c) :
    let m' := lastState (Eval.swap check (pure (.whole b)) (pure (.whole c)) m)
    WrittenOver (m.vectorAt b.place) (m.vectorAt c.place) (m'.vectorAt b.place) ∧
      WrittenOver (m.vectorAt c.place) (m.vectorAt b.place) (m'.vectorAt c.place) := by
  intro m'
  let half := m.modifyVector b.place fun old => Range.refill old (m.vectorAt c.place)
  have swapped : m' = half.modifyVector c.place fun old =>
      Range.refill old (m.vectorAt b.place) := by
    simp only [m', half, Eval.swap, Eval.readTarget, Eval.writeTarget, Eval.load, pure, bind,
      EStateM.pure, EStateM.bind, has.read_vector vector, has'.read_vector vector']
    rfl
  have left : half.vectorAt b.place = Range.refill (m.vectorAt b.place) (m.vectorAt c.place) :=
    vectorAt_modify m b.place fun old => Range.size_refill old _
  have right : m'.vectorAt c.place =
      Range.refill (half.vectorAt c.place) (m.vectorAt b.place) :=
    swapped ▸ vectorAt_modify half c.place fun old => Range.size_refill old _
  by_cases shares : b.place.Shares c.place
  · -- One vector under two names is written over with itself, twice.
    have size : (m'.vectorAt c.place).size = (m.vectorAt c.place).size := by
      rw [right, Range.size_refill, ← vectorAt_shares shares, left, Range.size_refill,
        vectorAt_shares shares]
    simp only [vectorAt_shares shares]
    exact ⟨writtenOver_longer size (Nat.le_refl _), writtenOver_longer size (Nat.le_refl _)⟩
  · have apart : ¬ c.place.Shares b.place := fun back => shares (by
      cases b_eq : b.place <;> cases c_eq : c.place <;> simp_all [Place.Shares])
    rw [right, swapped, vectorAt_apart apart fun old => Range.size_refill old _, left,
      vectorAt_apart shares fun old => Range.size_refill old _]
    exact ⟨writtenOver_refill _ (Nat.le_refl _), writtenOver_refill _ (Nat.le_refl _)⟩

theorem Has.overwrites {b : Binding} (has : m.Has b) (vector : b.kind = .vector) :
    m.Overwrites b where
  assign check op new := by
    have assigned : lastState (Eval.assign check (.whole b) op (.vector new) m) =
        m.modifyVector b.place fun old => Eval.combineVector op old (.vector new) := by
      simp only [Eval.assign, Eval.assignWhole, vector]
      rfl
    rw [assigned, vectorAt_modify m b.place fun old => Eval.size_combineVector op old _]
    exact writtenOver_combine op _ new
  writeBack new := by
    simp only [Eval.writeBack, vector]
    rw [vectorAt_modify m b.place fun old => Range.size_refill old new]
    exact writtenOver_refill _ (Nat.le_refl _)
  retyped p other := Tape.writeBack_other_kind (vector ▸ other) m
  swap check c vector' has' := swap_overwrites check vector vector' has has'

end Machine

/-! ### Whole evaluations -/

/-- Every vector has its length: one of the host that of the store the evaluation began with, a
local that of the declaration it has its value from. -/
structure Page.Lengthwise (store : Store) (page : Page) : Prop where
  hosts : ∀ c, (page.machine.store.vector c).size = (store.vector c).size
  locals : ∀ slot v, (slot, v) ∈ page.given → ∃ shape, page.code.Declares slot shape ∧
    shape.Holds v ∧ shape.Holds (page.machine.slot slot)

/-- No evaluation of an accepted program changes the length of a vector, whatever its native
functions reply and however it ends. So it is after every step that is taken, in the program and
in the functions it calls; and however a vector is written as a whole, it is written over. -/
theorem lengths_kept {w w' : World} (reached : w.Reached) (later : w'.Follows w)
    {table text : String} {settings : Settings} {program : Program}
    (compiled : compile (w.table table) settings [] text = .ok program)
    (check : Option Check) (limit rounds : Nat) (store : Store) :
    let host := w'.host check limit rounds
    let ended := host.diary program store
    host.run program store = ⟨Host.outcomeOf ended, (lastState ended).machine.store,
      (lastState ended).machine.reports.toList⟩ ∧
    (∀ c, ((host.run program store).store.vector c).size = (store.vector c).size) ∧
    (∀ page ∈ host.pages program store, host.Runs program page.code ∧ page.Lengthwise store) ∧
    ∀ (m : Machine) (b : Binding), b.kind = .vector → m.Has b → m.Overwrites b := by
  intro host ended
  have tells := host.pages_kept program store (reached.fine later compiled check limit rounds store)
  have run_eq := host.run_diary program store
  refine ⟨run_eq, fun c => ?_, fun page member => ?_, fun m b vector has => has.overwrites vector⟩
  · rw [run_eq]
    exact tells.now.lengths c
  · obtain ⟨runs, kept⟩ := tells.pages page member
    exact ⟨runs, kept.lengths, fun slot v given => kept.shapes (slot, v) given⟩

/-- Vectors of different lengths that are assigned and swapped, one of them by a function that
makes it grow. -/
theorem lengths_kept_of_growth :
    let grow : Native := .generic "V" fun kept _ _ => ⟨.ok 0, [.vector #[1, 2, 3, 4, 5]], kept⟩
    let w := World.empty.run [.addVector "t" "v" #[1, 2, 3], .addNatives "t" [("grow", grow)],
      .define "t" [⟨"last", ["x"], "var u[] := {x, x, x, x}; v := u; grow(u); v <=> u; u[3]"⟩]]
    let host := w.host none 100 1000
    ∃ program,
      compile (w.table "t") {} [] "var a[] := {1, 2}; grow(a); v += a; a <=> v; last(a[0])" =
        .ok program ∧
      host.run program w.store = ⟨Host.outcomeOf (host.diary program w.store),
        (lastState (host.diary program w.store)).machine.store,
        (lastState (host.diary program w.store)).machine.reports.toList⟩ ∧
      (∀ c, ((host.run program w.store).store.vector c).size = (w.store.vector c).size) ∧
      (∀ page ∈ host.pages program w.store,
        host.Runs program page.code ∧ page.Lengthwise w.store) ∧
      ∀ (m : Machine) (b : Binding), b.kind = .vector → m.Has b → m.Overwrites b := by
  intro grow w host
  have accepted : (compile (w.table "t") {} []
      "var a[] := {1, 2}; grow(a); v += a; a <=> v; last(a[0])").toOption.isSome = true := by
    decide +kernel
  obtain ⟨program, compiled⟩ := compile_accepted accepted
  exact ⟨program, compiled, lengths_kept ⟨_, rfl⟩ ⟨[], rfl⟩ compiled none 100 1000 w.store⟩

end MathScript
