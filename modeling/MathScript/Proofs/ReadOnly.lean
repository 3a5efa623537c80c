import MathScript.Proofs.Fitting
import MathScript.Proofs.Pages

/-!
Storage that is only read. What a name may write was decided where the name was read: nothing of
an immutable table, and no local behind `const var`. All names of one local agree in that, and a
whole evaluation keeps to it.
-/

namespace MathScript

open Parse Tree

/-! ### What names tell -/

/-- The name stands for the slot. -/
def Tree.Local (t : Tree) (slot : Nat) (b : Binding) : Prop :=
  t.Binds b ∧ ∃ kind, b.place = .slot slot kind

/-- Every name of a local is one of `names` and may be written if that is; all names of one local
are the same. -/
structure Tree.Named (names : List (String × Bool)) (t : Tree) : Prop where
  listed : ∀ slot b, t.Local slot b → (b.name, b.writable) ∈ names
  alike : ∀ slot b c, t.Local slot b → t.Local slot c →
    b.name = c.name ∧ b.writable = c.writable

namespace Tree

variable {offers : Grant → Prop} {layout : List Slot} {t : Tree} {names : List (String × Bool)}

theorem LaidOut.binds (laid : t.LaidOut offers layout) {b : Binding} (bound : t.Binds b) :
    ∃ live, b.InScope offers layout live := by
  obtain ⟨node, member, inside⟩ := bound
  exact (every_iff.mp laid node member).bindings b inside

theorem LaidOut.slot (laid : t.LaidOut offers layout) {slot : Nat} {b : Binding}
    (known : t.Local slot b) : ∃ kind, layout[slot]? = some ⟨b.name, kind, b.writable⟩ := by
  obtain ⟨bound, kind, place_eq⟩ := known
  obtain ⟨live, scope⟩ := laid.binds bound
  rw [Binding.InScope, place_eq] at scope
  exact ⟨kind, scope.2⟩

theorem LaidOut.named (laid : t.LaidOut offers layout)
    (granted : ∀ slot ∈ layout, (slot.name, slot.writable) ∈ names) : t.Named names where
  listed slot b known := by
    obtain ⟨kind, found⟩ := laid.slot known
    exact granted _ (List.mem_of_getElem? found)
  alike slot b c known known' := by
    obtain ⟨kind, found⟩ := laid.slot known
    obtain ⟨kind', found'⟩ := laid.slot known'
    have same : (⟨b.name, kind, b.writable⟩ : Slot) = ⟨c.name, kind', c.writable⟩ :=
      Option.some.inj (found.symm.trans found')
    exact ⟨congrArg Slot.name same, congrArg Slot.writable same⟩

/-- Where writing the host is not granted, no name of the host may be written. -/
theorem LaidOut.closed (laid : t.LaidOut offers layout) (shut : ¬ offers .write)
    (calls : ∀ n, ¬ t.Calls n) : t.Closed where
  calls := calls
  hosts b bound host := by
    obtain ⟨live, scope⟩ := laid.binds bound
    refine Bool.eq_false_iff.mpr fun writable => shut ?_
    unfold Binding.InScope at scope
    cases place_eq : b.place <;> simp_all [Place.isHost]

theorem not_calls (none : t.nodes.flatMap calls = []) (n : Nat) : ¬ t.Calls n := by
  rintro ⟨node, member, inside⟩
  have among : n ∈ t.nodes.flatMap calls := List.mem_flatMap.mpr ⟨node, member, inside⟩
  rw [none] at among
  cases among

/-- One name of a local tells whether it may be written. -/
theorem Named.readOnly (named : t.Named names) {slot : Nat} {b : Binding} (known : t.Local slot b)
    (fixed : b.writable = false) : t.ReadOnly slot :=
  fun c bound place => (named.alike slot c b ⟨bound, place⟩ known).2.trans fixed

/-- A name that is not declared without `const` stands for no local that may be written. -/
theorem Named.constant (named : t.Named names) {slot : Nat} {b : Binding} (known : t.Local slot b)
    (never : (b.name, true) ∉ names) : b.writable = false := by
  refine Bool.eq_false_iff.mpr fun writable => never ?_
  simpa [writable] using named.listed slot b known

end Tree

/-! ### Compiled texts -/

theorem Program.Compiled.laidOut {offers : Grant → Prop} {arity : Nat} {p : Program}
    (compiled : p.Compiled offers arity) :
    ∃ layout, (∀ slot ∈ layout, offers (.declare slot.name slot.writable)) ∧
      p.tree.LaidOut offers layout := by
  obtain ⟨⟨q, ⟨folding, tree_eq, -⟩, -, layout, -, -, granted, built⟩, -⟩ := compiled
  refine ⟨layout, granted, ?_⟩
  rw [tree_eq]
  cases folding with
  | false => exact built.laidOut
  | true => exact built.laidOut.fold

/-- The names of the program are those of its text. -/
theorem compile_named {table : Table} {settings : Settings} {params : List String} {text : String}
    {p : Program} (compiled : compile table settings params text = .ok p) :
    p.tree.Named (declaredNames settings params text.toList) := by
  obtain ⟨layout, granted, laid⟩ := (compile_compiled compiled).laidOut
  refine laid.named fun slot inside => ?_
  rcases granted slot inside with never | ⟨d, member, same⟩
  · exact never.elim
  · obtain ⟨name_eq, writable_eq⟩ := Grant.declare.inj same
    rwa [name_eq, writable_eq]

example : declaredNames {} ["x"] "const var k := x; var i := k".toList =
    [("x", true), ("k", false), ("i", true)] := by
  decide +kernel

/-- These are the names of a text that the tree is compiled from. -/
def Tree.Spelled (names : List (String × Bool)) (t : Tree) : Prop :=
  ∃ table settings params text p, compile table settings params text = .ok p ∧ p.tree = t ∧
    declaredNames settings params text.toList = names

theorem Tree.Spelled.named {names : List (String × Bool)} {t : Tree} (spelled : t.Spelled names) :
    t.Named names := by
  obtain ⟨table, settings, params, text, p, compiled, rfl, rfl⟩ := spelled
  exact compile_named compiled

/-- What is compiled is compiled from a text. -/
theorem Program.Compiled.spelled {offers : Grant → Prop} {arity : Nat} {p : Program}
    (compiled : p.Compiled offers arity) : ∃ names, p.tree.Spelled names := by
  obtain ⟨⟨q, ⟨folding, tree_eq, -⟩, ⟨table, settings, params, text, parsed⟩, -⟩, -⟩ := compiled
  refine ⟨_, table, { settings with constantFolding := folding }, params, text, q.settle folding,
    ?_, ?_, rfl⟩
  · have parsed' : parse table { settings with constantFolding := folding } params text = .ok q :=
      parsed
    rw [compile, parsed']
    rfl
  · rw [tree_eq]
    cases folding <;> rfl

/-- Whatever runs is compiled from a text. -/
theorem World.Sound.spelled {w : World} (sound : w.Sound) {check : Option Check}
    {limit rounds : Nat} {table : Table} {settings : Settings} {text : String} {program : Program}
    (compiled : compile table settings [] text = .ok program) {t : Tree}
    (runs : (w.host check limit rounds).Runs program t) : ∃ names, t.Spelled names := by
  rcases runs with rfl | ⟨n, p, found, rfl⟩
  · exact (compile_compiled compiled).spelled
  · obtain ⟨f, inside, rfl⟩ := World.body_function found
    exact (sound.functions n f inside).spelled

/-! ### Whole evaluations -/

/-- Every variable has in the one store what it has in the other. -/
structure Store.Alike (s s' : Store) : Prop where
  scalars : ∀ c, s.scalar c = s'.scalar c
  vectors : ∀ c, s.vector c = s'.vector c
  strings : ∀ c, s.string c = s'.string c

/-- What the code of a page may not write. -/
structure Page.ReadOnly (page : Page) : Prop where
  /-- A local that may not be written has the value it was declared with. -/
  locals : ∀ slot b v, page.code.Local slot b → b.writable = false → (slot, v) ∈ page.given →
    page.machine.slot slot = v
  /-- The code is that of a text, and what the text declares as constant may not be written. -/
  spelled : ∃ names, page.code.Spelled names ∧
    ∀ slot b, page.code.Local slot b → (b.name, true) ∉ names → b.writable = false

end MathScript
