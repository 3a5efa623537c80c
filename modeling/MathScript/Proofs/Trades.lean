import MathScript.Proofs.Compounds

/-!
Swaps as exchanges. Storage has parts: what a place holds as a whole, and the elements of vectors. A
swap exchanges the parts of its two sides, as far as both sides have them, and touches no other; or,
if one side is an element outside of its vector, it touches none.
-/

namespace MathScript

open Machine Tree

theorem Range.getElem?_refill {old new : Array Float} {i : Nat} (inside : i < old.size)
    (short : i < new.size) : (refill old new)[i]? = new[i]? := by
  have front : i < (new.extract 0 old.size).size := by
    rw [Array.size_extract]
    omega
  rw [refill, Array.getElem?_append_left front, Array.getElem?_extract, if_pos (by omega)]
  simp

/-! ### Parts of storage -/

/-- A part of storage: a number, a string or the length of a vector at a place, or one element. -/
inductive Part where
  | place (p : Place)
  | element (p : Place) (i : Nat)

/-- The same part under another name. -/
def Part.Shares : Part → Part → Prop
  | .place p, .place q => p.Shares q
  | .element p i, .element q j => p.Shares q ∧ i = j
  | _, _ => False

namespace Value

/-- Of a vector only the length is left. -/
def shell : Value → Value
  | .vector xs => .vector (Array.replicate xs.size 0)
  | other => other

def item? : Value → Nat → Option Value
  | .vector xs, i => xs[i]?.map .scalar
  | _, _ => none

/-- The `i`-th of what is written to the parts of a target; all of it if it is no vector. -/
def component : Value → Nat → Option Value
  | .vector xs, i => xs[i]?.map .scalar
  | other, _ => some other

theorem shell_kind (v : Value) : v.shell.kind? = v.kind? := by
  cases v <;> rfl

section

variable {v : Value} (other : v.kind? ≠ some .vector)

include other

theorem shell_other : v.shell = v := by
  cases v <;> first | rfl | exact absurd rfl other

theorem item_other (i : Nat) : v.item? i = none := by
  cases v <;> first | rfl | exact absurd rfl other

theorem component_other (i : Nat) : v.component i = some v := by
  cases v <;> first | rfl | exact absurd rfl other

end

/-- Nothing is lost. -/
theorem eq_of_parts {v w : Value} (shell : v.shell = w.shell) (items : ∀ i, v.item? i = w.item? i) :
    v = w := by
  cases v <;> cases w <;> first | exact shell | cases shell | skip
  · next xs ys =>
      congr 1
      apply Array.ext_getElem?
      intro i
      exact Option.map_injective (fun _ _ => Value.scalar.inj) (items i)

end Value

namespace Part

def root : Part → Place
  | .place p | .element p _ => p

/-- The part of what is stored at its place. -/
def look : Part → Value → Option Value
  | .place _, v => some v.shell
  | .element _ i, v => v.item? i

variable {a b : Part}

theorem Shares.root (shares : a.Shares b) : a.root.Shares b.root := by
  cases a <;> cases b <;> first | exact shares | exact shares.1 | exact shares.elim

theorem Shares.look (shares : a.Shares b) : a.look = b.look := by
  cases a <;> cases b
  · rfl
  · exact shares.elim
  · exact shares.elim
  · obtain ⟨-, rfl⟩ := shares
    rfl

end Part

namespace Machine

variable {m n : Machine} {p q : Place}

def part? (m : Machine) : Part → Option Value
  | .place p => (m.stored? p).map Value.shell
  | .element p i => (m.stored? p).bind (·.item? i)

theorem stored_shares (shares : p.Shares q) (m : Machine) : m.stored? p = m.stored? q := by
  cases p <;> cases q <;> cases shares <;> rfl

theorem part_eq (m : Machine) (a : Part) : m.part? a = (m.stored? a.root).bind a.look := by
  cases a with
  | place p => exact Option.map_eq_bind
  | element p i => rfl

theorem part_shares {a b : Part} (shares : a.Shares b) (m : Machine) : m.part? a = m.part? b := by
  rw [part_eq, part_eq, stored_shares shares.root, shares.look]

theorem stored_of_parts (same : m.part? (.place p) = n.part? (.place p))
    (items : ∀ i, m.part? (.element p i) = n.part? (.element p i)) : m.stored? p = n.stored? p := by
  simp only [part?] at same items
  cases left : m.stored? p with
  | none =>
      cases right : n.stored? p with
      | none => rfl
      | some w => simp [left, right] at same
  | some v =>
      cases right : n.stored? p with
      | none => simp [left, right] at same
      | some w =>
          simp only [left, right, Option.map_some, Option.bind_some] at same items
          rw [Value.eq_of_parts (Option.some.inj same) items]

/-- A variable is there, with a value of its kind. -/
def Holds (m : Machine) (b : Binding) : Prop := (m.stored? b.place).bind Value.kind? = some b.kind

theorem holds_iff {b : Binding} :
    m.Holds b ↔ (m.part? (.place b.place)).bind Value.kind? = some b.kind := by
  rw [Holds, part?]
  cases m.stored? b.place with
  | none => rfl
  | some v => simp [Value.shell_kind]

theorem Holds.stored {b : Binding} (holds : m.Holds b) :
    ∃ v, m.stored? b.place = some v ∧ v.kind? = some b.kind :=
  Option.bind_eq_some_iff.mp holds

theorem Holds.stored_vector {b : Binding} (holds : m.Holds b) (vector : b.kind = .vector) :
    ∃ xs, m.stored? b.place = some (.vector xs) := by
  obtain ⟨v, stored, known⟩ := holds.stored
  rw [vector] at known
  cases v with
  | vector xs => exact ⟨xs, stored⟩
  | null | scalar | string => cases known

end Machine

/-- The parts of a target: the elements of a vector, or the one that it is. -/
def Target.part : Target Float → Nat → Part
  | .whole b, i => if b.kind = .vector then .element b.place i else .place b.place
  | .element b index, _ => .element b.place (Index.ofFloat index).toNat
  | .range b .., _ => .place b.place

namespace Target

variable {x : Target Float}

theorem part_root (x : Target Float) (i : Nat) : (x.part i).root = x.binding.place := by
  cases x with
  | whole b =>
      rw [part]
      split <;> rfl
  | element | range => rfl

theorem part_apart {q : Part} (apart : ¬ x.binding.place.Shares q.root) (i : Nat) :
    ¬ (x.part i).Shares q :=
  fun shares => apart (x.part_root i ▸ shares.root)

end Target

/-- The value is what the target holds. -/
def Machine.Shows (m : Machine) (x : Target Float) (v : Value) : Prop :=
  ∀ i, m.part? (x.part i) = v.component i

/-- A value was written to a target, as far as the target has the parts, and to nothing else. -/
structure Machine.Writes (x : Target Float) (v : Value) (m m' : Machine) : Prop where
  there : ∀ i w, v.component i = some w → (m.part? (x.part i)).isSome → m'.part? (x.part i) = some w
  elsewhere : ∀ q, (∀ i, (v.component i).isSome → (m.part? (x.part i)).isSome →
    ¬ (x.part i).Shares q) → m'.part? q = m.part? q
  kinds : ∀ q, (m'.part? q).map Value.kind? = (m.part? q).map Value.kind?
  memories : m'.store.memories = m.store.memories

namespace Machine

variable {m m' : Machine} {b : Binding} {v w : Value} {f : Value → Value}

/-- What a change makes of the one value decides what it writes. -/
theorem Changes.writes {x : Target Float} (changes : Changes x.binding.place f m m')
    (stored : m.stored? x.binding.place = some w)
    (there : ∀ i u, v.component i = some u → ((x.part i).look w).isSome →
      (x.part i).look (f w) = some u)
    (elsewhere : ∀ q : Part, x.binding.place.Shares q.root → (∀ i, (v.component i).isSome →
      ((x.part i).look w).isSome → ¬ (x.part i).Shares q) → q.look (f w) = q.look w)
    (kinds : ∀ q : Part, (q.look (f w)).map Value.kind? = (q.look w).map Value.kind?) :
    Writes x v m m' := by
  have inside : ∀ q : Part, x.binding.place.Shares q.root →
      m'.part? q = q.look (f w) ∧ m.part? q = q.look w := fun q shares => by
    have before : m.stored? q.root = some w := stored_shares shares m ▸ stored
    rw [part_eq, part_eq, changes.there _ shares, before]
    exact ⟨rfl, rfl⟩
  have outside : ∀ q : Part, ¬ x.binding.place.Shares q.root → m'.part? q = m.part? q :=
    fun q apart => by rw [part_eq, part_eq, changes.elsewhere _ apart]
  have own : ∀ i, m'.part? (x.part i) = (x.part i).look (f w) ∧
      m.part? (x.part i) = (x.part i).look w := fun i =>
    inside _ (x.part_root i ▸ .refl _)
  constructor
  · intro i u component present
    rw [(own i).2] at present
    rw [(own i).1, there i u component present]
  · intro q apart
    by_cases shares : x.binding.place.Shares q.root
    · rw [(inside q shares).1, (inside q shares).2]
      exact elsewhere q shares fun i component present => apart i component ((own i).2 ▸ present)
    · exact outside q shares
  · intro q
    by_cases shares : x.binding.place.Shares q.root
    · rw [(inside q shares).1, (inside q shares).2, kinds]
    · rw [outside q shares]
  · exact changes.memories

/-- A number or a string is replaced. -/
theorem Changes.writes_whole (changes : Changes b.place f m m')
    (stored : m.stored? b.place = some w) (known : w.kind? = some b.kind)
    (other : b.kind ≠ .vector) (becomes : f w = v) (kind : v.kind? = some b.kind) :
    Writes (.whole b) v m m' := by
  have old_other : w.kind? ≠ some .vector := fun same => other (Option.some.inj (known ▸ same))
  have new_other : v.kind? ≠ some .vector := fun same => other (Option.some.inj (kind ▸ same))
  have part_eq : ∀ i, Target.part (.whole b) i = .place b.place := fun i => if_neg other
  refine writes (x := .whole b) changes stored ?_ ?_ ?_ <;> rw [becomes]
  · intro i u component _
    rw [part_eq, ← component, Value.component_other new_other, Part.look,
      Value.shell_other new_other]
  · intro q shares apart
    cases q with
    | place q =>
        refine absurd (part_eq 0 ▸ shares) (apart 0 ?_ (part_eq 0 ▸ rfl))
        rw [Value.component_other new_other]
        rfl
    | element q i =>
        rw [Part.look, Part.look, Value.item_other new_other, Value.item_other old_other]
  · intro q
    cases q with
    | place q => simp only [Part.look, Option.map_some, Value.shell_kind, kind, known]
    | element q i =>
        rw [Part.look, Part.look, Value.item_other new_other, Value.item_other old_other]

/-- Some elements of a vector are replaced. -/
theorem Changes.writes_elements {old after : Array Float} {x : Target Float}
    (changes : Changes x.binding.place f m m')
    (stored : m.stored? x.binding.place = some (.vector old))
    (becomes : f (.vector old) = .vector after) (size : after.size = old.size)
    (parts : ∀ i, ∃ j, x.part i = .element x.binding.place j ∧ ∀ w, v.component i = some w →
      j < old.size → after[j]?.map .scalar = some w)
    (others : ∀ j, (∀ i, (v.component i).isSome → j < old.size →
      x.part i ≠ .element x.binding.place j) → after[j]? = old[j]?) : Writes x v m m' := by
  have present : ∀ q j, ((Part.element q j).look (.vector old)).isSome ↔ j < old.size := by
    simp [Part.look, Value.item?]
  have shells : Value.shell (.vector after) = Value.shell (.vector old) := by
    rw [Value.shell, Value.shell, size]
  refine writes changes stored ?_ ?_ ?_ <;> rw [becomes]
  · intro i w component inside
    obtain ⟨j, part_eq, becomes⟩ := parts i
    rw [part_eq, present] at inside
    rw [part_eq]
    exact becomes w component inside
  · intro q shares apart
    cases q with
    | place q => exact congrArg some shells
    | element q j =>
        refine congrArg (Option.map Value.scalar) (others j fun i component inside part_eq => ?_)
        exact apart i component (part_eq ▸ (present _ j).mpr inside) (part_eq ▸ ⟨shares, rfl⟩)
  · intro q
    cases q with
    | place q => exact congrArg (Option.map Value.kind? ∘ some) shells
    | element q j =>
        simp only [Part.look, Value.item?, Option.map_map]
        by_cases inside : j < old.size
        · rw [Array.getElem?_eq_getElem (size ▸ inside), Array.getElem?_eq_getElem inside]
          rfl
        · rw [Array.getElem?_eq_none (by omega), Array.getElem?_eq_none (by omega)]

/-- The elements of a vector are replaced, as far as there are others. -/
theorem Changes.writes_vector {old new : Array Float} (changes : Changes b.place f m m')
    (stored : m.stored? b.place = some (.vector old)) (vector : b.kind = .vector)
    (becomes : f (.vector old) = .vector (Range.refill old new)) :
    Writes (.whole b) (.vector new) m m' := by
  refine writes_elements (x := .whole b) changes stored becomes (Range.size_refill old new)
    (fun i => ⟨i, if_pos vector, fun w component inside => ?_⟩) fun j apart => ?_
  · have short : i < new.size := by
      by_contra beyond
      simp [Value.component, Array.getElem?_eq_none (Nat.le_of_not_lt beyond)] at component
    rw [← component, Range.getElem?_refill inside short]
    rfl
  · by_cases beyond : new.size ≤ j
    · exact (writtenOver_refill old (Nat.le_refl _)).rest j beyond
    · have outside : ¬ j < old.size := fun inside =>
        apart j (by simpa [Value.component] using beyond) inside (if_pos vector)
      rw [Array.getElem?_eq_none (by rw [Range.size_refill]; omega),
        Array.getElem?_eq_none (by omega)]

/-- An element is replaced. -/
theorem Changes.writes_element {old : Array Float} {i : Nat} {index y : Float}
    (changes : Changes b.place f m m')
    (stored : m.stored? b.place = some (.vector old)) (at_ : Index.ofFloat index = i)
    (becomes : f (.vector old) = .vector (old.setIfInBounds i y)) :
    Writes (.element b index) (.scalar y) m m' := by
  have part_eq : ∀ k, Target.part (.element b index) k = .element b.place i := fun k => by
    rw [Target.part, at_, Int.toNat_natCast]
  refine writes_elements (x := .element b index) changes stored becomes (by simp)
    (fun k => ⟨i, part_eq k, fun w component inside => ?_⟩) fun j apart => ?_
  · rw [← component, Array.getElem?_setIfInBounds_self_of_lt inside]
    rfl
  · by_cases inside : j < old.size
    · have different : i ≠ j := by
        rintro rfl
        exact apart 0 rfl inside (part_eq 0)
      rw [Array.getElem?_setIfInBounds_ne different]
    · rw [Array.getElem?_eq_none (by simpa using inside), Array.getElem?_eq_none (by omega)]

end Machine

/-! ### Reading and writing targets -/

namespace Machine

variable {m n : Machine} {x : Target Float} {b : Binding}

/-- If the target is an element, its vector has it. -/
def Hits (m : Machine) : Target Float → Prop
  | .element b index => 0 ≤ Index.ofFloat index ∧
      (m.part? (.element b.place (Index.ofFloat index).toNat)).isSome
  | .whole _ | .range .. => True

theorem present_of_kinds (kinds : ∀ q, (n.part? q).map Value.kind? = (m.part? q).map Value.kind?)
    (q : Part) : (n.part? q).isSome = (m.part? q).isSome := by
  have same := congrArg Option.isSome (kinds q)
  rwa [Option.isSome_map, Option.isSome_map] at same

theorem Holds.of_kinds (kinds : ∀ q, (n.part? q).map Value.kind? = (m.part? q).map Value.kind?)
    (holds : m.Holds b) : n.Holds b := by
  have same : ∀ o : Option Value, o.bind Value.kind? = (o.map Value.kind?).join := by
    rintro (_ | v) <;> rfl
  rw [holds_iff, same] at *
  rw [kinds, holds]

theorem Hits.of_kinds (kinds : ∀ q, (n.part? q).map Value.kind? = (m.part? q).map Value.kind?)
    (hits : m.Hits x) : n.Hits x := by
  cases x with
  | element b index => exact ⟨hits.1, present_of_kinds kinds _ ▸ hits.2⟩
  | whole | range => trivial

theorem read_stored {p : Place} {v : Value} (stored : m.stored? p = some v) : m.read p = v := by
  cases p with
  | slot i kind =>
      have stored : m.locals[i]? = some v := stored
      rw [read, slot, Array.getD_eq_getD_getElem?, stored]
      rfl
  | constant => cases stored
  | scalar c | vector c | string c =>
      simp only [stored?, Store.content?, Option.map_eq_some_iff] at stored
      obtain ⟨y, at_, rfl⟩ := stored
      simp [read, Store.scalar, Store.vector, Store.string, Array.getD_eq_getD_getElem?, at_]

end Machine

namespace Eval

variable {m : Machine} {x : Target Float} {v : Value}

theorem writes_target (plain : x.Plain) (hits : m.Hits x) (holds : m.Holds x.binding)
    (kind : v.kind? = some x.kind) :
    ∃ m', writeTarget x v m = .ok () m' ∧ Machine.Writes x v m m' := by
  cases x with
  | whole b =>
      obtain ⟨w, stored, known⟩ := Holds.stored (b := b) holds
      have kind : v.kind? = some b.kind := kind
      cases v with
      | null => cases kind
      | scalar y =>
          have scalar : b.place.kind = .scalar := (Option.some.inj kind).symm
          refine ⟨_, rfl, (changes_setScalar m b.place y).writes_whole stored known ?_ ?_ kind⟩
          · rw [← Option.some.inj kind]
            nofun
          · cases place_eq : b.place <;> rw [place_eq] at scalar <;> first | rfl | cases scalar
      | string s =>
          refine ⟨_, rfl, (changes_modifyString m b.place fun _ => s).writes_whole stored known
            ?_ ?_ kind⟩
          · rw [← Option.some.inj kind]
            nofun
          · rw [← kind] at known
            cases w <;> first | rfl | cases known
      | vector new =>
          have vector : b.kind = .vector := (Option.some.inj kind).symm
          obtain ⟨old, stored⟩ := Holds.stored_vector (b := b) holds vector
          have changes := changes_modifyVector m b.place fun old => Range.refill old new
          exact ⟨_, rfl, changes.writes_vector stored vector rfl⟩
  | element b index =>
      obtain ⟨old, stored⟩ := Holds.stored_vector (b := b) holds plain
      obtain ⟨y, rfl⟩ : ∃ y, v = .scalar y := by
        cases v <;> first | exact ⟨_, rfl⟩ | cases kind
      obtain ⟨i, at_⟩ : ∃ i : Nat, Index.ofFloat index = i := Int.eq_ofNat_of_zero_le hits.1
      refine ⟨_, rfl, (changes_modifyVector m b.place _).writes_element stored at_ ?_⟩
      rw [at_]
      rfl
  | range b first last => exact plain.elim

theorem elementAt_of_nonneg {xs : Array Float} {i : Int} (nonneg : 0 ≤ i) :
    elementAt? xs i = xs[i.toNat]? := if_neg (by omega)

/-- A variable that is there, or an element that it has, is read as what it holds. -/
theorem shows_target (check : Option Check) (plain : x.Plain) (holds : m.Holds x.binding)
    (hits : m.Hits x) :
    ∃ v, readTarget check x m = .ok (some v) m ∧ m.Shows x v ∧ v.kind? = some x.kind := by
  cases x with
  | whole b =>
      obtain ⟨w, stored, known⟩ := Holds.stored (b := b) holds
      have read : m.read b.place = w := read_stored stored
      refine ⟨w, by rw [← read]; rfl, fun i => ?_, known⟩
      by_cases vector : b.kind = .vector
      · rw [Target.part, if_pos vector, part?, stored]
        cases w <;> first | rfl | simp_all [Target.binding, Value.kind?]
      · rw [Target.part, if_neg vector, part?, stored]
        have other : w.kind? ≠ some .vector := fun same => vector (Option.some.inj (known ▸ same))
        rw [Value.component_other other, Option.map_some, Value.shell_other other]
  | element b index =>
      obtain ⟨xs, stored⟩ := Holds.stored_vector (b := b) holds plain
      have held : m.vectorAt b.place = xs := by
        rw [vectorAt, read_stored stored]
      obtain ⟨nonneg, present⟩ := hits
      have part_eq : m.part? (.element b.place (Index.ofFloat index).toNat) =
          xs[(Index.ofFloat index).toNat]?.map .scalar := by
        rw [part?, stored]
        rfl
      rw [part_eq, Option.isSome_map] at present
      obtain ⟨y, found⟩ := Option.isSome_iff_exists.mp present
      have read : element? check b index m = .ok (some y) m := by
        rw [element?_eq, held, elementAt_of_nonneg nonneg, found]
      refine ⟨.scalar y, bind_completed read, fun i => ?_, rfl⟩
      rw [Target.part, part_eq, found]
      rfl
  | range b first last => exact plain.elim

/-- Only an element that the vector has is read as a value. -/
theorem hits_of_read {check : Option Check} {m' : Machine} (plain : x.Plain)
    (holds : m.Holds x.binding) (read : readTarget check x m = .ok (some v) m') : m.Hits x := by
  cases x with
  | whole b => trivial
  | element b index =>
      obtain ⟨found, m₁, looked, mapped⟩ := ok_of_bind read
      obtain ⟨rfl, -⟩ := element?_ok looked
      cases found : elementAt? (m.vectorAt b.place) (Index.ofFloat index) with
      | none =>
          rw [found] at mapped
          cases mapped
      | some y =>
          obtain ⟨i, at_, short, -⟩ := elementAt?_eq_some found
          obtain ⟨xs, stored⟩ := Holds.stored_vector (b := b) holds plain
          rw [vectorAt, read_stored stored] at short
          refine ⟨by omega, ?_⟩
          rw [at_, Int.toNat_natCast, part?, stored]
          simpa [Value.item?] using short
  | range b first last => exact plain.elim

end Eval

/-! ### Two writes -/

namespace Target

variable {x y : Target Float}

theorem part_single (single : x.kind ≠ .vector) (i j : Nat) : x.part i = x.part j := by
  cases x with
  | whole b =>
      have single : b.kind ≠ .vector := single
      rw [part, part, if_neg single, if_neg single]
  | element | range => rfl

theorem part_vector (vector : x.kind = .vector) :
    ∃ b, x = .whole b ∧ ∀ i, x.part i = .element b.place i := by
  cases x with
  | whole b => exact ⟨b, rfl, fun i => if_pos vector⟩
  | element | range => cases vector

/-- Parts that the sides share stand at one number. -/
theorem part_meets (same : x.kind = y.kind) {i j : Nat} (shares : (y.part j).Shares (x.part i)) :
    y.part i = y.part j := by
  by_cases vector : x.kind = .vector
  · obtain ⟨b, rfl, left⟩ := part_vector vector
    obtain ⟨c, rfl, right⟩ := part_vector (same ▸ vector)
    rw [left, right] at shares
    obtain rfl : j = i := shares.2
    rfl
  · exact part_single (same ▸ vector) i j

end Target

namespace Machine

variable {m m₁ m₂ n : Machine} {x y : Target Float} {v w : Value} {check : Option Check}

/-- Both sides have an `i`-th part. What is no vector has the same part at every number. -/
def Both (m : Machine) (x y : Target Float) (i : Nat) : Prop :=
  (m.part? (x.part i)).isSome ∧ (m.part? (y.part i)).isSome

/-- Reports aside, the machines differ at most in the parts that both sides have; and there they
hold values of the same kinds. -/
structure Differs (check : Option Check) (x y : Target Float) (m n : Machine) : Prop where
  elsewhere : ∀ q, (∀ i, m.Both x y i → ¬ (x.part i).Shares q ∧ ¬ (y.part i).Shares q) →
    n.part? q = m.part? q
  kinds : ∀ q, (n.part? q).map Value.kind? = (m.part? q).map Value.kind?
  memories : n.store.unheard check = m.store.unheard check

/-- Each side holds what the other one held, in every part that both have, and nothing else has
changed, reports aside. -/
structure Exchanged (check : Option Check) (x y : Target Float) (m n : Machine) : Prop
    extends Differs check x y m n where
  there : ∀ i, m.Both x y i →
    n.part? (x.part i) = m.part? (y.part i) ∧ n.part? (y.part i) = m.part? (x.part i)

/-- Two vectors have parts in common as far as the shorter one goes. -/
theorem both_iff {b c : Binding} {xs ys : Array Float} (left : b.kind = .vector)
    (right : c.kind = .vector) (held : m.stored? b.place = some (.vector xs))
    (held' : m.stored? c.place = some (.vector ys)) (i : Nat) :
    m.Both (.whole b) (.whole c) i ↔ i < min xs.size ys.size := by
  rw [Both, Target.part, Target.part, if_pos left, if_pos right, part?, part?, held, held',
    Nat.lt_min]
  simp [Value.item?]

theorem exchanged_of_writes (same : x.kind = y.kind) (left : m.Shows x v) (right : m.Shows y w)
    (first : Writes x w m m₁) (second : Writes y v m₁ m₂) : Exchanged check x y m m₂ := by
  have present := present_of_kinds first.kinds
  have there : ∀ i, m.Both x y i → m₁.part? (x.part i) = m.part? (y.part i) := by
    rintro i ⟨here, there⟩
    obtain ⟨u, held⟩ := Option.isSome_iff_exists.mp there
    rw [first.there i u (right i ▸ held) here, held]
  have kinds := fun q => (second.kinds q).trans (first.kinds q)
  refine ⟨⟨fun q apart => ?_, kinds, ?_⟩, fun i both => ?_⟩
  · rw [second.elsewhere q, first.elsewhere q]
    · exact fun i component here => (apart i ⟨here, right i ▸ component⟩).1
    · exact fun i component here => (apart i ⟨left i ▸ component, present _ ▸ here⟩).2
  · exact Store.unheard_congr (second.memories.trans first.memories) check
  · obtain ⟨u, held⟩ := Option.isSome_iff_exists.mp both.1
    have back : m₂.part? (y.part i) = m.part? (x.part i) := by
      rw [second.there i u (left i ▸ held) (present _ ▸ both.2), held]
    refine ⟨?_, back⟩
    by_cases meets : (y.part i).Shares (x.part i)
    · -- Written twice, the part holds what it held: on both sides that is one part.
      rw [← part_shares meets, back, ← part_shares meets]
    · rw [second.elsewhere, there i both]
      intro j _ _ shares
      exact meets (Target.part_meets same shares ▸ shares)

theorem Aside.part_eq (aside : Aside check m n) (q : Part) : m.part? q = n.part? q := by
  have stored : ∀ p, m.stored? p = n.stored? p := fun p => aside.stored p (by simp)
  cases q <;> rw [part?, part?, stored]

theorem aside_of_parts (parts : ∀ q, m.part? q = n.part? q)
    (memories : m.store.unheard check = n.store.unheard check) : Aside check m n :=
  ⟨fun p _ => stored_of_parts (parts (.place p)) fun i => parts (.element p i), memories⟩

/-- A second exchange undoes the first one. -/
theorem Exchanged.undone (first : Exchanged check x y m m₁) (second : Exchanged check x y m₁ m₂) :
    Aside check m m₂ := by
  have both : ∀ i, m₁.Both x y i ↔ m.Both x y i := fun i => by
    rw [Both, Both, present_of_kinds first.kinds, present_of_kinds first.kinds]
  refine aside_of_parts (fun q => ?_) (second.memories.trans first.memories).symm
  by_cases met : ∃ i, m.Both x y i ∧ ((x.part i).Shares q ∨ (y.part i).Shares q)
  · obtain ⟨i, at_, shares⟩ := met
    obtain ⟨there, back⟩ := first.there i at_
    obtain ⟨there', back'⟩ := second.there i ((both i).mpr at_)
    rcases shares with shares | shares
    · rw [← part_shares shares, ← part_shares shares, there', back]
    · rw [← part_shares shares, ← part_shares shares, back', there]
  · have apart : ∀ i, m.Both x y i → ¬ (x.part i).Shares q ∧ ¬ (y.part i).Shares q :=
      fun i at_ => not_or.mp fun shares => met ⟨i, at_, shares⟩
    rw [second.elsewhere q fun i at_ => apart i ((both i).mp at_), first.elsewhere q apart]

/-- Where it starts may have been told otherwise. -/
theorem Exchanged.of_aside (aside : Aside check m n) (exchanged : Exchanged check x y n m₁) :
    Exchanged check x y m m₁ := by
  have both : ∀ i, m.Both x y i ↔ n.Both x y i := fun i => by
    rw [Both, Both, aside.part_eq, aside.part_eq]
  constructor
  · constructor
    · intro q apart
      rw [exchanged.elsewhere q fun i at_ => apart i ((both i).mpr at_), aside.part_eq]
    · intro q
      rw [exchanged.kinds, aside.part_eq]
    · rw [exchanged.memories, aside.memories]
  · intro i at_
    rw [aside.part_eq, aside.part_eq]
    exact exchanged.there i ((both i).mp at_)

end Machine

/-! ### Swaps on a host -/

namespace Eval

/-- What a swap does once both sides are read. -/
def trade (x y : Target Float) : Option Value → Option Value → Eval Value
  | some v, some w => do
      writeTarget x w
      writeTarget y v
      return v
  | _, _ => return .null

theorem swap_eq (check : Option Check) (left right : Eval (Target Float)) :
    swap check left right = (do
      let x ← left
      let v ← readTarget check x
      let y ← right
      let w ← readTarget check y
      trade x y v w) :=
  rfl

theorem Quiet.shows {check : Option Check} {m : Machine} {x : Target Float} {v : Value}
    (plain : x.Plain) (holds : m.Holds x.binding)
    (read : Quiet check (readTarget check x) m (some v)) :
    m.Hits x ∧ m.Shows x v ∧ v.kind? = some x.kind := by
  obtain ⟨m', read, -⟩ := read
  have hits := hits_of_read plain holds read
  obtain ⟨w, read', shows, kind⟩ := shows_target check plain holds hits
  obtain rfl : w = v := by
    rw [read'] at read
    injection read with same
    exact Option.some.inj same
  exact ⟨hits, shows, kind⟩

/-- Two targets of one kind, read as they are, are exchanged. -/
theorem trade_exchanges {check : Option Check} {m : Machine} {x y : Target Float} {v w : Value}
    (plain : x.Plain) (plain' : y.Plain) (same : x.kind = y.kind) (holds : m.Holds x.binding)
    (holds' : m.Holds y.binding) (read : Quiet check (readTarget check x) m (some v))
    (read' : Quiet check (readTarget check y) m (some w)) :
    ∃ m', trade x y (some v) (some w) m = .ok v m' ∧ Exchanged check x y m m' := by
  obtain ⟨hits, shows, kind⟩ := read.shows plain holds
  obtain ⟨hits', shows', kind'⟩ := read'.shows plain' holds'
  obtain ⟨m₁, written, first⟩ := writes_target plain hits holds (same ▸ kind')
  obtain ⟨m₂, written', second⟩ := writes_target plain' (hits'.of_kinds first.kinds)
    (holds'.of_kinds first.kinds) (same ▸ kind)
  refine ⟨m₂, ?_, exchanged_of_writes same shows shows' first second⟩
  rw [trade, bind_completed written, bind_completed written']
  rfl

end Eval

section

variable {host : Host} (impartial : host.Impartial) {depth : Nat} {m : Machine} {l r : Target Tree}
  {x y : Target Float} {a b : Option Value}

include impartial

theorem Host.Impartial.reads_again {n : Machine}
    (read : Eval.Quiet host.check (Eval.readTarget host.check x) m a)
    (aside : Aside host.check m n) : Eval.Quiet host.check (Eval.readTarget host.check x) n a :=
  Agree.quiet (impartial.kernel.readTarget x (by simp)) read aside

/-- A swap comes to the trade of what its sides are read as. -/
theorem Host.Impartial.swap_trades
    (aims : Eval.Quiet host.check (evalTarget host (host.invoke depth) l) m x)
    (aims' : Eval.Quiet host.check (evalTarget host (host.invoke depth) r) m y)
    (reads : Eval.Quiet host.check (Eval.readTarget host.check x) m a)
    (reads' : Eval.Quiet host.check (Eval.readTarget host.check y) m b) :
    ∃ n, Aside host.check m n ∧
      (Tree.swap l r).eval host (host.invoke depth) m = Eval.trade x y a b n := by
  obtain ⟨m₁, aimed, aside₁⟩ := aims
  obtain ⟨m₂, read, aside₂⟩ := impartial.reads_again reads aside₁
  have at_m₂ := aside₁.trans aside₂
  obtain ⟨m₃, aimed', aside₃⟩ := impartial.aims_again aims' at_m₂
  obtain ⟨m₄, read', aside₄⟩ := impartial.reads_again reads' (at_m₂.trans aside₃)
  refine ⟨m₄, at_m₂.trans (aside₃.trans aside₄), ?_⟩
  rw [eval, Eval.swap_eq, bind_completed aimed, bind_completed read, bind_completed aimed',
    bind_completed read']

/-- A swap of two targets of one kind that can be read exchanges them. -/
theorem Host.Impartial.swap_exchanged {v w : Value} (lefts : l.Plain) (rights : r.Plain)
    (same : l.kind = r.kind) (holds : m.Holds l.binding) (holds' : m.Holds r.binding)
    (aims : Eval.Quiet host.check (evalTarget host (host.invoke depth) l) m x)
    (aims' : Eval.Quiet host.check (evalTarget host (host.invoke depth) r) m y)
    (reads : Eval.Quiet host.check (Eval.readTarget host.check x) m (some v))
    (reads' : Eval.Quiet host.check (Eval.readTarget host.check y) m (some w)) :
    ∃ m', (Tree.swap l r).eval host (host.invoke depth) m = .ok v m' ∧
      m.Exchanged host.check x y m' := by
  obtain ⟨_, aimed, _⟩ := id aims
  obtain ⟨_, aimed', _⟩ := id aims'
  obtain ⟨plain, kind, binding⟩ := lefts.evaluated aimed
  obtain ⟨plain', kind', binding'⟩ := rights.evaluated aimed'
  obtain ⟨n, aside, traded⟩ := impartial.swap_trades aims aims' reads reads'
  have kinds : ∀ q, (n.part? q).map Value.kind? = (m.part? q).map Value.kind? := fun q => by
    rw [aside.part_eq]
  obtain ⟨m', done, exchanged⟩ := Eval.trade_exchanges plain plain'
    (kind.trans (same.trans kind'.symm)) (binding ▸ holds.of_kinds kinds)
    (binding' ▸ holds'.of_kinds kinds) (impartial.reads_again reads aside)
    (impartial.reads_again reads' aside)
  exact ⟨m', traded.trans done, exchanged.of_aside aside⟩

end

/-- A target that is aimed at alike, and without effects, whatever the parts hold that both sides
of an exchange have. -/
def Host.Heedless (host : Host) (depth : Nat) (m : Machine) (x y : Target Float)
    (t : Target Tree) (z : Target Float) : Prop :=
  ∀ n, m.Differs host.check x y n →
    Eval.Quiet host.check (evalTarget host (host.invoke depth) t) n z

/-- Whose indices make no use of either variable is heedless of both. -/
theorem Host.Impartial.heedless {host : Host} (impartial : host.Impartial) {depth : Nat}
    {m : Machine} {x y z : Target Float} {t : Target Tree}
    (aims : Eval.Quiet host.check (evalTarget host (host.invoke depth) t) m z)
    (ignores : ∀ i ∈ t.indices, host.Ignores x.binding.place i ∧ host.Ignores y.binding.place i) :
    host.Heedless depth m x y t z := by
  intro n differs
  have apart : Besides host.check [x.binding.place, y.binding.place] m n := by
    refine ⟨fun p outside => ?_, differs.memories.symm⟩
    have left : ¬ x.binding.place.Shares p := outside _ (by simp)
    have right : ¬ y.binding.place.Shares p := outside _ (by simp)
    have same : ∀ q : Part, q.root = p → n.part? q = m.part? q := fun q at_ => by
      subst at_
      exact differs.elsewhere q fun i _ => ⟨Target.part_apart left i, Target.part_apart right i⟩
    exact (stored_of_parts (same (.place p) rfl) fun j => same (.element p j) rfl).symm
  refine (impartial.agree_target (fun i inside p place => ?_) depth).quiet aims apart
  have both := ignores i inside
  simp only [List.mem_cons, List.not_mem_nil, or_false] at place
  rcases place with rfl | rfl
  · exact both.1
  · exact both.2

namespace Parse

theorem of_exchange {source : Source} {left right node : Typed} {p : Nat} {s s' : State}
    (parsed : exchange source left right p s = .ok node s') :
    ∃ l r, node = ⟨.swap l r, l.kind⟩ ∧ l.kind = r.kind := by
  suffices Ends (exchange source left right p) s (fun node _ => ∃ l r,
      node = ⟨.swap l r, l.kind⟩ ∧ l.kind = r.kind) fun _ _ => True from this.of_ok parsed
  refine ends_bind (ends_true.mono (fun l _ _ => ?_) fun _ _ => id)
  refine ends_bind (ends_true.mono (fun r _ _ => ?_) fun _ _ => id)
  split
  · next same => exact ends_pure ⟨l, r, rfl, same⟩
  · trivial

/-- Swaps are exchanges. Let a swap of two targets be accepted, neither a range of a string, and let
a machine have both variables, on which both sides are aimed at and read without effects. If one
side is an element outside of its vector, the swap yields null and leaves the machine as it is,
reports aside. Otherwise it yields what the left side held, each side then holds what the other one
held, in every part that both have, and nothing else has changed; and if both sides are aimed at
alike whatever these parts hold, another swap restores the machine. The check, if there is one,
decides by the access alone and lets these pass; the sides may be one variable under two names. -/
theorem swap_exchanges {source : Source} {host : Host} (impartial : host.Impartial)
    {left right node : Typed} {l r : Target Tree} {p : Nat} {s s' : State}
    (parsed : exchange source left right p s = .ok node s') (swap : node.tree = .swap l r)
    (lefts : l.Plain) (rights : r.Plain) {depth : Nat} {m : Machine}
    (holds : m.Holds l.binding) (holds' : m.Holds r.binding) {x y : Target Float}
    (aims : Eval.Quiet host.check (evalTarget host (host.invoke depth) l) m x)
    (aims' : Eval.Quiet host.check (evalTarget host (host.invoke depth) r) m y)
    {a b : Option Value}
    (reads : Eval.Quiet host.check (Eval.readTarget host.check x) m a)
    (reads' : Eval.Quiet host.check (Eval.readTarget host.check y) m b) (folding : Bool) :
    match a, b with
    | some v, some _ =>
        ∃ m', (settle folding node.tree).eval host (host.invoke depth) m = .ok v m' ∧
          m.Exchanged host.check x y m' ∧
          (host.Heedless depth m x y l x → host.Heedless depth m x y r y →
            ∃ w m'', (settle folding node.tree).eval host (host.invoke depth) m' = .ok w m'' ∧
              Aside host.check m m'')
    | _, _ =>
        ∃ m', (settle folding node.tree).eval host (host.invoke depth) m = .ok .null m' ∧
          Aside host.check m m' := by
  obtain ⟨l', r', rfl, same⟩ := of_exchange parsed
  obtain ⟨rfl, rfl⟩ : l' = l ∧ r' = r := by
    injection swap with left right
    exact ⟨left, right⟩
  obtain ⟨_, aimed, _⟩ := id aims
  obtain ⟨_, aimed', _⟩ := id aims'
  obtain ⟨plain, kind, binding⟩ := lefts.evaluated aimed
  obtain ⟨plain', kind', binding'⟩ := rights.evaluated aimed'
  simp only [eval_settle host.settles_self]
  match a, b with
  | some v, some w =>
      obtain ⟨m', done, exchanged⟩ :=
        impartial.swap_exchanged lefts rights same holds holds' aims aims' reads reads'
      refine ⟨m', done, exchanged, fun heedless heedless' => ?_⟩
      have hits := (reads.shows plain (binding ▸ holds)).1.of_kinds exchanged.kinds
      have hits' := (reads'.shows plain' (binding' ▸ holds')).1.of_kinds exchanged.kinds
      have holds := holds.of_kinds exchanged.kinds
      have holds' := holds'.of_kinds exchanged.kinds
      obtain ⟨v', read, -⟩ := Eval.shows_target host.check plain (binding ▸ holds) hits
      obtain ⟨w', read', -⟩ := Eval.shows_target host.check plain' (binding' ▸ holds') hits'
      obtain ⟨m'', done', again⟩ := impartial.swap_exchanged lefts rights same holds holds'
        (heedless m' exchanged.toDiffers) (heedless' m' exchanged.toDiffers)
        ⟨m', read, .refl m'⟩ ⟨m', read', .refl m'⟩
      exact ⟨v', m'', done', exchanged.undone again⟩
  | none, _ =>
      obtain ⟨n, aside, traded⟩ := impartial.swap_trades aims aims' reads reads'
      exact ⟨n, traded, aside⟩
  | some _, none =>
      obtain ⟨n, aside, traded⟩ := impartial.swap_trades aims aims' reads reads'
      exact ⟨n, traded, aside⟩

/-- Two vectors exchange their elements as far as the shorter one goes, and back again. -/
theorem swap_exchanges_of_vectors :
    let w := World.empty.run [.addVector "t" "v" #[1, 2, 3], .addVector "t" "w" #[10, 20]]
    let host := w.host (some ⟨Judge.log, ⟨0⟩⟩) 100 1000
    let m := Host.start ⟨.null, 0⟩ w.store
    let source := Compile.source (w.table "t") {} ""
    let s := Compile.start {} [] []
    let b : Binding := ⟨"v", .vector ⟨0⟩, true⟩
    let c : Binding := ⟨"w", .vector ⟨1⟩, true⟩
    let node : Typed := ⟨.swap (.whole b) (.whole c), .vector⟩
    exchange source ⟨.load b, .vector⟩ ⟨.load c, .vector⟩ 0 s = .ok node s ∧
      ∃ m', (settle true node.tree).eval host (host.invoke 100) m = .ok (.vector #[1, 2, 3]) m' ∧
        m.Exchanged host.check (.whole b) (.whole c) m' ∧
        ∃ v m'', (settle true node.tree).eval host (host.invoke 100) m' = .ok v m'' ∧
          Aside host.check m m'' := by
  intro w host m source s b c node
  have impartial : host.Impartial := by
    constructor
    · rintro c ⟨⟩ kept kept' access
      rfl
    · rintro c ⟨⟩ n r registered
      cases registered
  have parsed : exchange source ⟨.load b, .vector⟩ ⟨.load c, .vector⟩ 0 s = .ok node s := rfl
  have aims : ∀ n d, Eval.Quiet host.check (evalTarget host (host.invoke 100) (.whole d)) n
      (.whole d) := fun n d => ⟨n, rfl, .refl n⟩
  have reads : Eval.Quiet host.check (Eval.readTarget host.check (.whole b)) m
      (some (.vector #[1, 2, 3])) := ⟨m, rfl, .refl m⟩
  have reads' : Eval.Quiet host.check (Eval.readTarget host.check (.whole c)) m
      (some (.vector #[10, 20])) := ⟨m, rfl, .refl m⟩
  have holds : m.Holds b := rfl
  have holds' : m.Holds c := rfl
  obtain ⟨m', done, exchanged, again⟩ := swap_exchanges impartial parsed rfl trivial trivial holds
    holds' (aims m b) (aims m c) reads reads' true
  exact ⟨parsed, m', done, exchanged, again (fun n _ => aims n b) fun n _ => aims n c⟩

end Parse

end MathScript
