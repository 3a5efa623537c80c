import MathScript.Proofs.Holding

/-!
Tables with their compositors, side by side. Natives and functions are numbered over all of them, so
what is asked of one table takes numbers from the others and leaves them alone otherwise: seen from
one table, everything is a history of the registry it is in. A function is held by one table and its
compositors, under the name it was given, and only as long as they have not let it go; what is not
held any more is never held again.
-/

namespace MathScript

/-- Any number of tables by their names, each with any number of compositors. -/
@[ext]
structure Estate where
  natives : Nat
  functions : Array Composed
  tables : String → Table
  compositors : String → Nat → Compositor

/-- What is asked of one of the tables or of its compositors. -/
structure Request where
  table : String
  operation : Registry.Operation

namespace Estate

def empty : Estate := ⟨0, #[], fun _ => Table.empty, fun _ _ => .withSettings {}⟩

/-- One table with its compositors. -/
def registry (e : Estate) (table : String) : Registry :=
  ⟨e.tables table, e.natives, e.functions, e.compositors table⟩

def withRegistry (e : Estate) (table : String) (r : Registry) : Estate where
  natives := r.natives
  functions := r.functions
  tables other := if other = table then r.table else e.tables other
  compositors other := if other = table then r.compositor else e.compositors other

/-- What a request leaves, refused or not. -/
def after (e : Estate) (request : Request) : Estate :=
  e.withRegistry request.table ((e.registry request.table).after request.operation)

def run (e : Estate) (history : List Request) : Estate := history.foldl after e

variable {e : Estate} {request : Request} {table name : String} {n : Nat}

theorem run_append (e : Estate) (first rest : List Request) :
    e.run (first ++ rest) = (e.run first).run rest :=
  List.foldl_append

/-! ### Seen from one table -/

theorem registry_after_self (e : Estate) (request : Request) :
    (e.after request).registry request.table =
      (e.registry request.table).after request.operation := by
  simp only [after, withRegistry, registry, if_pos]

theorem registry_after_other (different : table ≠ request.table) :
    (e.after request).registry table =
      { e.registry table with
        natives := (e.after request).natives, functions := (e.after request).functions } := by
  simp only [after, withRegistry, registry, if_neg different]

theorem withRegistry_withRegistry (e : Estate) (table : String) (r r' : Registry) :
    (e.withRegistry table r).withRegistry table r' = e.withRegistry table r' := by
  simp only [withRegistry, mk.injEq, true_and]
  constructor <;>
    · funext other
      split <;> rfl

theorem functions_after (e : Estate) (request : Request) :
    ∃ more, (e.after request).functions = e.functions ++ more :=
  Registry.functions_after (e.registry request.table) request.operation

theorem functions_run (e : Estate) (history : List Request) :
    ∃ more, (e.run history).functions = e.functions ++ more := by
  induction history generalizing e with
  | nil => exact ⟨#[], Array.append_empty.symm⟩
  | cons request history ih =>
      obtain ⟨more, grown⟩ := e.functions_after request
      obtain ⟨others, grown'⟩ := ih (e.after request)
      refine ⟨more ++ others, ?_⟩
      rw [← Array.append_assoc, ← grown]
      exact grown'

/-- What stands behind a number stays. -/
theorem function_run {f : Composed} (found : e.functions[n]? = some f) (history : List Request) :
    (e.run history).functions[n]? = some f := by
  obtain ⟨more, grown⟩ := e.functions_run history
  obtain ⟨bound, -⟩ := Array.getElem?_eq_some_iff.mp found
  rw [grown, Array.getElem?_append_left bound, found]

theorem size_run (e : Estate) (history : List Request) :
    e.functions.size ≤ (e.run history).functions.size := by
  obtain ⟨more, grown⟩ := e.functions_run history
  rw [grown, Array.size_append]
  exact Nat.le_add_right _ _

/-- Of what is asked of another table, a table sees that numbers are taken. -/
theorem registry_after (e : Estate) (request : Request) (table : String) :
    ∃ op, (e.after request).registry table = (e.registry table).after op := by
  by_cases here : table = request.table
  · exact ⟨request.operation, here ▸ e.registry_after_self request⟩
  · obtain ⟨more, grown⟩ := e.functions_after request
    have natives := Registry.natives_after (e.registry request.table) request.operation
    obtain ⟨taken, numbered⟩ := Nat.exists_eq_add_of_le natives
    refine ⟨.elsewhere taken more, ?_⟩
    rw [registry_after_other here, grown]
    exact congrArg (Registry.mk _ · _ _) numbered

/-- Seen from one table, a history is one of its registry. -/
theorem registry_run (e : Estate) (history : List Request) (table : String) :
    ∃ ops, (e.run history).registry table = (e.registry table).run ops := by
  induction history generalizing e with
  | nil => exact ⟨[], rfl⟩
  | cons request history ih =>
      obtain ⟨op, first⟩ := e.registry_after request table
      obtain ⟨ops, rest⟩ := ih (e.after request)
      exact ⟨op :: ops, by rw [Registry.run, List.foldl_cons, ← first]; exact rest⟩

/-! ### Holders -/

/-- Some table or some compositor has the function. -/
def Held (e : Estate) (n : Nat) : Prop := ∃ table name, (e.registry table).Holds name n

/-- What a compositor knows it knew before or has just registered. -/
theorem known_after {owner : Nat}
    (known : (name, n) ∈ ((e.after request).compositors table owner).known) :
    (name, n) ∈ (e.compositors table owner).known ∨
      table = request.table ∧ (e.registry table).Adds request.operation owner name n := by
  change (name, n) ∈ (((e.after request).registry table).compositor owner).known at known
  by_cases here : table = request.table
  · subst here
    rw [registry_after_self] at known
    exact (Registry.known_after known).imp_right fun adds => ⟨rfl, adds⟩
  · rw [registry_after_other here] at known
    exact .inl known

/-- What is held is held from before or has just been registered. -/
theorem holds_after (holds : ((e.after request).registry table).Holds name n) :
    (e.registry table).Holds name n ∨ table = request.table ∧
      ∃ owner, (e.registry table).Adds request.operation owner name n := by
  by_cases here : table = request.table
  · subst here
    rw [registry_after_self] at holds
    exact (Registry.holds_after holds).imp_right fun adds => ⟨rfl, adds⟩
  · rw [registry_after_other here] at holds
    cases holds with
    | table bound => exact .inl (.table bound)
    | compositor owner known => exact .inl (.compositor owner known)

/-- What is held was held in the beginning or goes by a number that was given later. -/
theorem holds_run {history : List Request} (holds : ((e.run history).registry table).Holds name n) :
    (e.registry table).Holds name n ∨ e.functions.size ≤ n := by
  induction history generalizing e with
  | nil => exact .inl holds
  | cons request history ih =>
      rcases ih holds with earlier | fresh
      · rcases holds_after earlier with old | ⟨-, owner, adds⟩
        · exact .inl old
        · exact .inr adds.fresh
      · exact .inr (Nat.le_trans (e.size_run [request]) fresh)

/-- What nobody holds any more nobody will ever hold again. -/
theorem gone_for_good (gone : ¬ e.Held n) (numbered : n < e.functions.size)
    (history : List Request) : ¬ (e.run history).Held n := by
  rintro ⟨table, name, holds⟩
  rcases holds_run holds with old | fresh
  · exact gone ⟨table, name, old⟩
  · exact absurd numbered (Nat.not_lt.mpr fresh)

/-! ### One name, one table, one compositor -/

/-- A function is held under the name that it was given, in one table, and known to one of its
compositors. -/
structure Accounted (e : Estate) : Prop where
  named : ∀ {table name n}, (e.registry table).Holds name n →
    ∃ f, e.functions[n]? = some f ∧ f.name = name
  placed : ∀ {table name n other called}, (e.registry table).Holds name n →
    (e.registry other).Holds called n → table = other
  owned : ∀ {table name n owner called other}, (name, n) ∈ (e.compositors table owner).known →
    (called, n) ∈ (e.compositors table other).known → owner = other

theorem Accounted.numbered (accounted : e.Accounted) (held : e.Held n) : n < e.functions.size := by
  obtain ⟨table, name, holds⟩ := held
  obtain ⟨f, found, -⟩ := accounted.named holds
  exact (Array.getElem?_eq_some_iff.mp found).1

theorem Accounted.one_place {other called : String} (accounted : e.Accounted)
    (holds : (e.registry table).Holds name n) (holds' : (e.registry other).Holds called n) :
    table = other ∧ name = called := by
  obtain ⟨f, found, rfl⟩ := accounted.named holds
  obtain ⟨g, found', rfl⟩ := accounted.named holds'
  obtain rfl := Option.some.inj (found.symm.trans found')
  exact ⟨accounted.placed holds holds', rfl⟩

/-- A function stays where it is, under its name, as long as it is held at all. -/
theorem Accounted.held_run_iff (accounted : e.Accounted) (holds : (e.registry table).Holds name n)
    (history : List Request) :
    (e.run history).Held n ↔ ((e.run history).registry table).Holds name n := by
  constructor
  · rintro ⟨other, called, holds'⟩
    rcases holds_run holds' with old | fresh
    · obtain ⟨rfl, rfl⟩ := accounted.one_place holds old
      exact holds'
    · have numbered := accounted.numbered ⟨table, name, holds⟩
      exact absurd numbered (Nat.not_lt.mpr fresh)
  · exact fun holds' => ⟨table, name, holds'⟩

theorem not_held_empty (n : Nat) : ¬ empty.Held n := by
  rintro ⟨table, name, ⟨arity, inside⟩ | ⟨owner, known⟩⟩
  · cases inside
  · cases known

theorem accounted_empty : empty.Accounted where
  named holds := absurd ⟨_, _, holds⟩ (not_held_empty _)
  placed holds _ := absurd ⟨_, _, holds⟩ (not_held_empty _)
  owned known _ := nomatch known

/-- What one request adds goes by a number that is held nowhere else. -/
theorem accounted_after (accounted : e.Accounted) (request : Request) :
    (e.after request).Accounted := by
  have old : ∀ {table name n}, (e.registry table).Holds name n → n < e.functions.size :=
    fun holds => accounted.numbered ⟨_, _, holds⟩
  constructor
  · intro table name n holds
    rcases holds_after holds with before | ⟨rfl, owner, adds⟩
    · obtain ⟨f, found, named⟩ := accounted.named before
      exact ⟨f, function_run found [request], named⟩
    · obtain ⟨f, settings, body, found, named, -⟩ := adds.composed
      exact ⟨f, found, named⟩
  · intro table name n other called holds holds'
    rcases holds_after holds with before | ⟨rfl, owner, adds⟩
    · rcases holds_after holds' with before' | ⟨-, owner', adds'⟩
      · exact accounted.placed before before'
      · exact absurd (old before) (Nat.not_lt.mpr adds'.fresh)
    · rcases holds_after holds' with before' | ⟨rfl, owner', adds'⟩
      · exact absurd (old before') (Nat.not_lt.mpr adds.fresh)
      · rfl
  · intro table name n owner called other known known'
    rcases known_after known with before | ⟨rfl, adds⟩
    · rcases known_after known' with before' | ⟨-, adds'⟩
      · exact accounted.owned before before'
      · exact absurd (old (.compositor owner before)) (Nat.not_lt.mpr adds'.fresh)
    · rcases known_after known' with before' | ⟨-, adds'⟩
      · exact absurd (old (.compositor other before')) (Nat.not_lt.mpr adds.fresh)
      · obtain ⟨group, asked⟩ := adds.asked
        obtain ⟨group', asked'⟩ := adds'.asked
        exact (Registry.Operation.define.inj (asked.symm.trans asked')).1

theorem accounted_run (accounted : e.Accounted) (history : List Request) :
    (e.run history).Accounted := by
  induction history generalizing e with
  | nil => exact accounted
  | cons request history ih => exact ih (accounted_after accounted request)

/-! ### Letting go -/

/-- A compositor that takes a function back was the only one that knew it, and the table had it
under no other name; so nobody holds it any more. -/
theorem undefine_gone (accounted : e.Accounted) {owner : Nat} {r : Registry}
    (known : (e.compositors table owner).find? name = some n)
    (taken : Registry.perform (.undefine owner name) (e.registry table) = .ok () r) :
    ¬ (e.after ⟨table, .undefine owner name⟩).Held n := by
  have left : (e.registry table).after (.undefine owner name) = r := by
    rw [Registry.after, taken, lastState_ok]
  have state : (e.after ⟨table, .undefine owner name⟩).registry table = r :=
    (e.registry_after_self ⟨table, .undefine owner name⟩).trans left
  have knows : (e.registry table).Holds name n :=
    .compositor owner (Named.mem_of_lookup_eq_some known)
  rintro ⟨other, key, holds⟩
  have before : (e.registry other).Holds key n := by
    rcases holds_after holds with before | ⟨-, _, adds⟩
    · exact before
    · obtain ⟨group, asked⟩ := adds.asked
      cases asked
  obtain ⟨rfl, rfl⟩ := accounted.one_place before knows
  rw [state] at holds
  obtain ⟨unbound, unknown⟩ := Registry.undefine_lets_go known taken n
  cases holds with
  | table bound => exact unbound bound
  | compositor owner' inside =>
      rcases Registry.known_after (left ▸ inside) with before | adds
      · have same := accounted.owned before (Named.mem_of_lookup_eq_some known)
        exact unknown (same ▸ inside)
      · obtain ⟨group, asked⟩ := adds.asked
        cases asked

end Estate

end MathScript
