import MathScript.Proofs.Frames
import MathScript.Proofs.ReadOnly

/-!
The variables of a program. Its tree names what it uses of the host, and these names stand for all
that an evaluation reads or writes there, as long as it calls no function written in the language.
Two evaluations that start with the same contents of those cells go side by side; whatever else the
host stores has no part in them, and it stays as it is.
-/

namespace MathScript

/-! ### Cells -/

namespace Store

variable {s s' t : Store}

/-- What a cell holds; nothing where there is no such cell. -/
def content? (s : Store) : Place → Option Value
  | .scalar c => s.scalars[c.index]?.map .scalar
  | .vector c => s.vectors[c.index]?.map .vector
  | .string c => s.strings[c.index]?.map .string
  | .constant _ | .slot .. => none

/-- The cells hold the same, and natives and checks remember the same. -/
structure Agrees (cells : Place → Prop) (s s' : Store) : Prop where
  contents : ∀ p, cells p → s.content? p = s'.content? p
  memories : s.memories = s'.memories

/-- The cell at `p` is changed, and nothing else. -/
structure Changes (p : Place) (f : Value → Value) (s t : Store) : Prop where
  there : t.content? p = (s.content? p).map f
  elsewhere : ∀ q, q ≠ p → t.content? q = s.content? q
  memories : t.memories = s.memories

theorem changes_setScalar (s : Store) (c : Cell .scalar) (x : Float) :
    Changes (.scalar c) (fun _ => .scalar x) s (s.setScalar c x) := by
  constructor
  · simp [content?, setScalar, Machine.setIfInBounds_eq_modify, Array.getElem?_modify,
      Function.comp_def]
  · intro q different
    cases q with
    | scalar d =>
        have apart := Machine.cells_apart fun same => different (congrArg Place.scalar same.symm)
        simp [content?, setScalar, apart]
    | _ => rfl
  · rfl

theorem changes_modifyVector (s : Store) (c : Cell .vector) (f : Array Float → Array Float) :
    Changes (.vector c) (Value.mapVector f) s (s.modifyVector c f) := by
  constructor
  · simp [content?, modifyVector, Array.getElem?_modify, Value.mapVector, Function.comp_def]
  · intro q different
    cases q with
    | vector d =>
        have apart := Machine.cells_apart fun same => different (congrArg Place.vector same.symm)
        simp [content?, modifyVector, Array.getElem?_modify, apart]
    | _ => rfl
  · rfl

theorem changes_modifyString (s : Store) (c : Cell .string) (f : String → String) :
    Changes (.string c) (Value.mapString f) s (s.modifyString c f) := by
  constructor
  · simp [content?, modifyString, Array.getElem?_modify, Value.mapString, Function.comp_def]
  · intro q different
    cases q with
    | string d =>
        have apart := Machine.cells_apart fun same => different (congrArg Place.string same.symm)
        simp [content?, modifyString, Array.getElem?_modify, apart]
    | _ => rfl
  · rfl

end Store

/-- What a machine reads of the host is what the cell holds. -/
theorem Machine.read_of_content {m m' : Machine} {p : Place} (host : p.isHost = true)
    (same : m.store.content? p = m'.store.content? p) : m.read p = m'.read p := by
  cases p with
  | scalar c =>
      have cell : m.store.scalars[c.index]? = m'.store.scalars[c.index]? :=
        Option.map_injective (fun _ _ => Value.scalar.inj) same
      simp [read, Store.scalar, Array.getD_eq_getD_getElem?, cell]
  | vector c =>
      have cell : m.store.vectors[c.index]? = m'.store.vectors[c.index]? :=
        Option.map_injective (fun _ _ => Value.vector.inj) same
      simp [read, Store.vector, Array.getD_eq_getD_getElem?, cell]
  | string c =>
      have cell : m.store.strings[c.index]? = m'.store.strings[c.index]? :=
        Option.map_injective (fun _ _ => Value.string.inj) same
      simp [read, Store.string, Array.getD_eq_getD_getElem?, cell]
  | constant | slot => cases host

/-! ### Two runs side by side -/

/-- Two machines in the middle of runs from `s` and `s'`: they differ in nothing but in what the
host stores outside of `cells`, and there neither has changed anything. -/
structure Abreast (cells : Place → Prop) (s s' : Store) (m m' : Machine) : Prop where
  locals : m.locals = m'.locals
  reports : m.reports = m'.reports
  agree : m.store.Agrees cells m'.store
  left : ∀ p, ¬ cells p → m.store.content? p = s.content? p
  right : ∀ p, ¬ cells p → m'.store.content? p = s'.content? p

namespace Abreast

variable {cells : Place → Prop} {s s' : Store} {m m' : Machine}

theorem read {p : Place} (abreast : Abreast cells s s' m m')
    (inside : p.isHost = true → cells p) : m.read p = m'.read p := by
  by_cases host : p.isHost = true
  · exact Machine.read_of_content host (abreast.agree.contents p (inside host))
  · cases p with
    | slot i kind =>
        show m.slot i = m'.slot i
        rw [Machine.slot, Machine.slot, abreast.locals]
    | constant x => rfl
    | scalar | vector | string => exact absurd rfl host

/-- Both change the same cell in the same way. -/
theorem change {p : Place} {f : Value → Value} {t t' : Store} (abreast : Abreast cells s s' m m')
    (inside : cells p) (changes : m.store.Changes p f t) (changes' : m'.store.Changes p f t') :
    Abreast cells s s' { m with store := t } { m' with store := t' } := by
  constructor
  · exact abreast.locals
  · exact abreast.reports
  · constructor
    · intro q known
      by_cases same : q = p
      · rw [same, changes.there, changes'.there, abreast.agree.contents p inside]
      · rw [changes.elsewhere q same, changes'.elsewhere q same, abreast.agree.contents q known]
    · rw [changes.memories, changes'.memories, abreast.agree.memories]
  · intro q outside
    have apart : q ≠ p := by
      rintro rfl
      exact outside inside
    rw [changes.elsewhere q apart, abreast.left q outside]
  · intro q outside
    have apart : q ≠ p := by
      rintro rfl
      exact outside inside
    rw [changes'.elsewhere q apart, abreast.right q outside]

/-- Both change their slots in the same way. -/
theorem reframe (abreast : Abreast cells s s' m m') (f : Array Value → Array Value) :
    Abreast cells s s' (m.framing (f m.locals)) (m'.framing (f m'.locals)) where
  locals := congrArg f abreast.locals
  reports := abreast.reports
  agree := abreast.agree
  left := abreast.left
  right := abreast.right

theorem memory (abreast : Abreast cells s s' m m') (memory : Memory) :
    m.store.memory memory = m'.store.memory memory := by
  rw [Store.memory, Store.memory, abreast.agree.memories]

theorem remember (abreast : Abreast cells s s' m m') (memory : Memory) (n : Nat) :
    Abreast cells s s' (m.setMemory memory n) (m'.setMemory memory n) where
  locals := abreast.locals
  reports := abreast.reports
  agree := ⟨abreast.agree.contents, congrArg (·.setIfInBounds memory.index n)
    abreast.agree.memories⟩
  left := abreast.left
  right := abreast.right

theorem tell (abreast : Abreast cells s s' m m') (access : Access) :
    Abreast cells s s' { m with reports := m.reports.push access }
      { m' with reports := m'.reports.push access } where
  locals := abreast.locals
  reports := congrArg (·.push access) abreast.reports
  agree := abreast.agree
  left := abreast.left
  right := abreast.right

theorem setScalar {p : Place} (abreast : Abreast cells s s' m m')
    (inside : p.isHost = true → cells p) (x : Float) :
    Abreast cells s s' (m.setScalar p x) (m'.setScalar p x) := by
  cases p with
  | scalar c =>
      exact abreast.change (inside rfl) (m.store.changes_setScalar c x)
        (m'.store.changes_setScalar c x)
  | slot i kind => exact abreast.reframe fun locals => locals.setIfInBounds i (.scalar x)
  | constant | vector | string => exact abreast

theorem modifyVector {p : Place} (abreast : Abreast cells s s' m m')
    (inside : p.isHost = true → cells p) (f : Array Float → Array Float) :
    Abreast cells s s' (m.modifyVector p f) (m'.modifyVector p f) := by
  cases p with
  | vector c =>
      exact abreast.change (inside rfl) (m.store.changes_modifyVector c f)
        (m'.store.changes_modifyVector c f)
  | slot i kind => exact abreast.reframe fun locals => locals.modify i (Value.mapVector f)
  | constant | scalar | string => exact abreast

theorem modifyString {p : Place} (abreast : Abreast cells s s' m m')
    (inside : p.isHost = true → cells p) (f : String → String) :
    Abreast cells s s' (m.modifyString p f) (m'.modifyString p f) := by
  cases p with
  | string c =>
      exact abreast.change (inside rfl) (m.store.changes_modifyString c f)
        (m'.store.changes_modifyString c f)
  | slot i kind => exact abreast.reframe fun locals => locals.modify i (Value.mapString f)
  | constant | scalar | vector => exact abreast

end Abreast

section

variable {cells : Place → Prop} {s s' : Store}

theorem agree_modify {f : Machine → Machine}
    (kept : ∀ m m', Abreast cells s s' m m' → Abreast cells s s' (f m) (f m')) :
    Agree (Abreast cells s s') (modify f : Eval PUnit) (modify f) :=
  fun m m' abreast => ⟨rfl, kept m m' abreast⟩

theorem agree_numeric (host : Host) (native : Nat) (vs : List Value) :
    Agree (Abreast cells s s') (Eval.callNumeric host native vs)
      (Eval.callNumeric host native vs) := by
  intro m m' abreast
  unfold Eval.callNumeric
  cases host.natives[native]? with
  | none => exact ⟨rfl, abreast⟩
  | some registered =>
      obtain ⟨function, memory⟩ := registered
      -- What the function remembers is on both sides the same.
      cases function with
      | scalar arity run =>
          simp only [abreast.memory memory]
          exact ⟨rfl, abreast.remember memory _⟩
      | vararg run =>
          simp only [abreast.memory memory]
          exact ⟨rfl, abreast.remember memory _⟩
      | generic signature run => exact ⟨rfl, abreast⟩

theorem agree_answer (host : Host) (native overload : Nat) (vs : List Value) :
    Agree (Abreast cells s s') (Acts.answer host native overload vs)
      (Acts.answer host native overload vs) := by
  have asked : Agree (Abreast cells s s') (Eval.ask host native overload vs)
      (Eval.ask host native overload vs) := by
    intro m m' abreast
    unfold Eval.ask
    cases host.natives[native]? with
    | none => exact ⟨rfl, abreast⟩
    | some registered =>
        obtain ⟨function, memory⟩ := registered
        cases function with
        | generic signature run =>
            simp only [abreast.memory memory]
            exact ⟨rfl, abreast.remember memory _⟩
        | scalar | vararg => exact ⟨rfl, abreast⟩
  apply agree_bind asked
  intro reply
  match reply with
  | none => exact agree_pure _
  | some ⟨.error f, _, _⟩ => exact agree_throw _
  | some ⟨.ok x, params, _⟩ => exact agree_pure _

theorem agree_told (check : Option Check) (b : Binding) (length : Nat) (index : Int) :
    Agree (Abreast cells s s') (Eval.report check b length index)
      (Eval.report check b length index) := by
  unfold Eval.report
  cases check with
  | none => exact agree_pure ()
  | some c =>
      have kept : Agree (Abreast cells s s')
          (modifyGet fun m : Machine => (m.store.memory c.memory, m) : Eval Nat)
          (modifyGet fun m : Machine => (m.store.memory c.memory, m)) :=
        fun m m' abreast => ⟨abreast.memory c.memory, abreast⟩
      apply agree_bind kept
      intro memory
      apply agree_bind (agree_modify fun m m' abreast =>
        (abreast.remember c.memory _).tell ⟨b.name, index, length⟩)
      intro _
      cases (c.judge memory ⟨b.name, index, length⟩).1 with
      | none => exact agree_pure ()
      | some f => exact agree_throw _

/-- What a machine does at places of the cells, or not of the host, it does abreast. -/
theorem acts_abreast (host : Host) :
    (Acts.machine host).InStep (Acts.machine host) (Agree (Abreast cells s s'))
      (fun p => p.isHost = true → cells p) fun _ => True where
  read _ inside := fun _ _ abreast => ⟨abreast.read inside, abreast⟩
  setScalar _ x inside := agree_modify fun _ _ abreast => abreast.setScalar inside x
  modifyVector _ f inside := agree_modify fun _ _ abreast => abreast.modifyVector inside f
  modifyString _ f inside := agree_modify fun _ _ abreast => abreast.modifyString inside f
  declare slot v _ := agree_modify fun _ _ abreast =>
    abreast.reframe fun locals => locals.setIfInBounds slot v
  numeric := agree_numeric host
  ask := agree_answer host
  report := agree_told host.check

/-- A whole evaluation, if all that its tree uses of the host is of the cells and it calls no
function written in the language. -/
theorem run_abreast (host : Host) {program : Program} (calls : ∀ n, ¬ program.tree.Calls n)
    (bound : ∀ b, program.tree.Binds b → b.place.isHost = true → cells b.place) :
    Agree (Abreast cells s s') ((Machine.kernel host).run host program)
      ((Machine.kernel host).run host program) := by
  have acts : (Acts.machine host).InStep (Acts.machine host) (Agree (Abreast cells s s'))
      (fun p => p.isHost = true → cells p) fun _ => True := acts_abreast host
  have steps := acts.kernel (agree_lockstep _).toStepwise Host.enter Host.enter
  rw [Acts.Machine.kernel_machine] at steps
  have fits : program.tree.Every (Tree.Fits (fun b => b.place.isHost = true → cells b.place)
      (fun _ _ => True) program.tree.Calls) :=
    program.tree.every_own.mono fun t own =>
      ⟨fun b member => bound b (own.bindings b member), fun _ _ => trivial, own.calls⟩
  exact Kernel.InStep.walk (agree_lockstep _) steps (.inl rfl) (fun _ => rfl)
    (fun n _ called => absurd called (calls n)) fits

end

/-! ### The names of a tree -/

/-- Dropping repetitions next to each other drops no member. -/
theorem mem_eraseReps_loop {name : String} {rest : List String} {last : String}
    {before : List String} : name ∈ List.eraseRepsBy.loop (· == ·) last rest before ↔
      name ∈ before ∨ name ∈ last :: rest := by
  induction rest generalizing last before with
  | nil => simp [List.eraseRepsBy.loop, or_comm]
  | cons next rest ih =>
      rw [List.eraseRepsBy.loop]
      split
      · next same =>
          rw [ih, eq_of_beq same]
          simp
      · rw [ih]
        simp [or_assoc, or_left_comm]

theorem mem_eraseReps {name : String} {names : List String} :
    name ∈ names.eraseReps ↔ name ∈ names := by
  cases names with
  | nil => rfl
  | cons first rest =>
      rw [List.eraseReps, List.eraseRepsBy, mem_eraseReps_loop]
      simp

theorem Tree.mem_variableNames {t : Tree} {name : String} :
    name ∈ t.variableNames ↔ ∃ b, t.Binds b ∧ b.place.isHost = true ∧ b.name = name := by
  simp only [variableNames, mem_eraseReps, List.mem_mergeSort, hostNames, List.mem_map,
    List.mem_filter, List.mem_flatMap, Binds, and_assoc]

/-! ### The variables of a program -/

/-- One of the names stands for the cell in the table. -/
def Table.Stores (table : Table) (names : List String) (p : Place) : Prop :=
  p.isHost = true ∧ ∃ name ∈ names, ∃ s, table.find? name = some s ∧ Parse.place? s = some p

/-- What a program uses of the host is what the table has under that name. -/
theorem compile_stores {table : Table} {settings : Settings} {params : List String} {text : String}
    {program : Program} (compiled : compile table settings params text = .ok program) {b : Binding}
    (bound : program.tree.Binds b) (host : b.place.isHost = true) :
    table.Stores program.tree.variableNames b.place := by
  obtain ⟨layout, -, laid⟩ := (compile_compiled compiled).laidOut
  obtain ⟨live, scope⟩ := laid.binds bound
  have listed : b.name ∈ program.tree.variableNames :=
    Tree.mem_variableNames.mpr ⟨b, bound, host, rfl⟩
  have used : table.GrantsTo (declaredNames settings params text.toList)
      (.use b.name b.place) := by
    unfold Binding.InScope at scope
    cases place_eq : b.place with
    | slot | constant => rw [place_eq] at host; cases host
    | scalar | vector | string => rw [place_eq] at scope; exact scope.1
  rcases used with ⟨s, found, same⟩ | ⟨d, -, never⟩
  · exact ⟨host, b.name, listed, s, found, same⟩
  · cases never

/-- The variables of a program are all of the host it depends on and all it changes. From stores
that agree on what they stand for, its evaluations end the same way, having made the same accesses,
and the stores still agree there; every other cell holds what it held, whatever names the table has
for it. -/
theorem variables_cover {table : Table} {settings : Settings} {text : String} {program : Program}
    (compiled : compile table settings [] text = .ok program)
    (calls : ∀ n, ¬ program.tree.Calls n) (host : Host) {s s' : Store}
    (agree : s.Agrees (table.Stores program.tree.variableNames) s') :
    let cells := table.Stores program.tree.variableNames
    let report := host.run program s
    let report' := host.run program s'
    report.outcome = report'.outcome ∧ report.accesses = report'.accesses ∧
    report.store.Agrees cells report'.store ∧
    (∀ p, ¬ cells p → report.store.content? p = s.content? p) ∧
    (∀ p, ¬ cells p → report'.store.content? p = s'.content? p) := by
  intro cells report report'
  have start : Abreast cells s s' (Host.start program s) (Host.start program s') := by
    constructor
    · rfl
    · rfl
    · exact agree
    · exact fun _ _ => rfl
    · exact fun _ _ => rfl
  have same := run_abreast host calls (fun b bound => compile_stores compiled bound) _ _ start
  have ended := same.state
  have report_eq : report = Host.reportOf _ := Host.run_eq host program s
  have report'_eq : report' = Host.reportOf _ := Host.run_eq host program s'
  rw [report_eq, report'_eq]
  exact ⟨same.outcome, congrArg Array.toList ended.reports, ended.agree, ended.left, ended.right⟩

/-- A program that swaps an element with a variable under its other name, hands a vector to a
function that empties it and writes a part of a string. A variable it does not name may hold
anything: it ends the same way, and the variable still holds that. -/
theorem variables_cover_of_alias :
    let clear : Native := .generic "V" fun kept _ _ => ⟨.ok 0, [.vector #[]], kept⟩
    let w := World.empty.run [.addScalar "t" "a" 2, .addScalar "t" "c" 5,
      .addVector "t" "v" #[1, 2], .addString "t" "s" "pqr", .share "t" "b" "t" "a",
      .addNatives "t" [("clear", clear)]]
    let text := "repeat v[0] <=> b; clear(v); s[1:] := s[:0] until (v[] < b)"
    let host := w.host none 100 1000
    let c : Cell .scalar := ⟨1⟩
    let s := w.store
    let s' := s.setScalar c 9
    ∃ program,
      compile (w.table "t") {} [] text = .ok program ∧
      program.tree.variableNames ⊆ ["b", "s", "v"] ∧
      (host.run program s).outcome = (host.run program s').outcome ∧
      (host.run program s).store.content? (.scalar c) = s.content? (.scalar c) ∧
      (host.run program s').store.content? (.scalar c) = s'.content? (.scalar c) := by
  intro clear w text host c s s'
  have used : (compile (w.table "t") {} [] text).toOption.map (fun program =>
      (program.tree.nodes.flatMap Tree.calls, program.tree.hostNames)) =
        some ([], ["v", "b", "v", "v", "s", "s", "v", "b"]) := by
    decide +kernel
  cases compiled : compile (w.table "t") {} [] text with
  | error ds =>
      rw [compiled] at used
      cases used
  | ok program =>
      rw [compiled] at used
      obtain ⟨none, hosts⟩ := Prod.mk.inj (Option.some.inj used)
      have names : program.tree.variableNames ⊆ ["b", "s", "v"] := by
        intro name listed
        rw [Tree.variableNames, mem_eraseReps, List.mem_mergeSort, hosts] at listed
        have all : ["v", "b", "v", "v", "s", "s", "v", "b"] ⊆ ["b", "s", "v"] := by decide
        exact all listed
      have other : ¬ (w.table "t").Stores program.tree.variableNames (.scalar c) := by
        have never : ∀ name ∈ ["b", "s", "v"],
            ((w.table "t").find? name).bind Parse.place? ≠ some (.scalar c) := by
          decide +kernel
        rintro ⟨-, name, listed, symbol, found, same⟩
        have unstored := never name (names listed)
        rw [found] at unstored
        exact unstored same
      have agree : s.Agrees ((w.table "t").Stores program.tree.variableNames) s' := by
        have changes : Store.Changes (.scalar c) (fun _ => .scalar 9) s s' :=
          s.changes_setScalar c 9
        constructor
        · intro p stored
          have apart : p ≠ .scalar c := by
            rintro rfl
            exact other stored
          exact (changes.elsewhere p apart).symm
        · exact changes.memories.symm
      have covered := variables_cover compiled (Tree.not_calls none) host agree
      exact ⟨program, rfl, names, covered.1, covered.2.2.2.1 _ other, covered.2.2.2.2 _ other⟩

end MathScript
