import MathScript.Proofs.Hosting
import MathScript.Proofs.Resolved

/-!
What a call finds. It was resolved to a function when it was compiled, and it keeps that function
only by its number: the body is there as long as the table that the call was compiled against or
one of the compositors of that table holds the function. Names may be given up and given again
meanwhile; a call never goes to what its name stands for later.
-/

namespace MathScript

open Tree

/-- Evaluation finds the bodies of the functions that somebody holds, and no others. -/
def Host.Serves (host : Host) (e : Estate) : Prop :=
  ∀ n p, host.body? n = some p ↔ e.Held n ∧ ∃ f, e.functions[n]? = some f ∧ f.program = p

theorem Compositor.knows_iff {c : Compositor} {n : Nat} :
    c.knows n = true ↔ ∃ name, (name, n) ∈ c.known := by
  simp [knows]

namespace World

variable {w : World}

theorem table_listed (w : World) (name : String) :
    (name, w.table name) ∈ w.tables ∨ w.table name = Table.empty := by
  unfold World.table
  cases listed : w.tables.lookup name with
  | none => exact .inr rfl
  | some t => exact .inl (Named.mem_of_lookup_eq_some listed)

theorem compositor_listed (w : World) (name : String) :
    (name, w.compositor name) ∈ w.compositors ∨ w.compositor name = .withSettings {} := by
  unfold World.compositor
  cases listed : w.compositors.lookup name with
  | none => exact .inr rfl
  | some c => exact .inl (Named.mem_of_lookup_eq_some listed)

theorem isLive_iff (distinct : w.Distinct) {n : Nat} : w.isLive n = true ↔ w.estate.Held n := by
  rw [isLive, Bool.or_eq_true, List.any_eq_true, List.any_eq_true]
  constructor
  · rintro (⟨⟨table, t⟩, listed, binds⟩ | ⟨⟨table, c⟩, listed, knows⟩)
    · obtain rfl : w.table table = t := by
        rw [World.table, Named.lookup_eq_some_of_mem distinct.tables listed, Option.getD_some]
      obtain ⟨name, bound⟩ := Table.binds_iff.mp binds
      exact ⟨table, name, .table bound⟩
    · obtain rfl : w.compositor table = c := by
        rw [World.compositor, Named.lookup_eq_some_of_mem distinct.compositors listed,
          Option.getD_some]
      obtain ⟨name, known⟩ := Compositor.knows_iff.mp knows
      exact ⟨table, name, .compositor 0 known⟩
  · rintro ⟨table, name, bound | ⟨owner, known⟩⟩
    · have bound : (w.table table).Binds name n := bound
      rcases w.table_listed table with listed | empty
      · exact .inl ⟨_, listed, Table.binds_iff.mpr ⟨name, bound⟩⟩
      · obtain ⟨arity, inside⟩ := bound
        rw [empty] at inside
        cases inside
    · have known : (name, n) ∈ ((w.registry table).compositor owner).known := known
      unfold World.registry at known
      dsimp only at known
      split at known
      · rcases w.compositor_listed table with listed | empty
        · exact .inr ⟨_, listed, Compositor.knows_iff.mpr ⟨name, known⟩⟩
        · rw [empty] at known
          cases known
      · cases known

/-- What evaluation finds in a world are the bodies that are held there. -/
theorem Reached.serves (reached : w.Reached) (check : Option Check) (limit rounds : Nat) :
    (w.host check limit rounds).Serves w.estate := by
  intro n p
  rw [← isLive_iff reached.distinct]
  simp only [host, bodies, Array.getElem?_mapIdx, show w.estate.functions = w.functions from rfl]
  cases w.functions[n]? with
  | none => simp
  | some f => by_cases live : w.isLive n = true <;> simp [live]

end World

namespace Estate

variable {e : Estate} {history : List Request} {table name : String} {n : Nat} {d : Composed}
  {args : List Tree} {host : Host}

/-! ### Calls -/

theorem eval_call_of_held (serves : host.Serves e) (found : e.functions[n]? = some d)
    (held : e.Held n) (invoke : Invoke) :
    (Tree.call (.composed name n) args).eval host invoke = do
      let vs ← evalList host invoke args
      return .scalar (← invoke name d.program (vs.map Value.asScalar)) := by
  have body := (serves n d.program).mpr ⟨held, d, found, rfl⟩
  simp only [eval, Eval.call, body]

theorem eval_call_of_gone (serves : host.Serves e) (gone : ¬ e.Held n) (invoke : Invoke) :
    (Tree.call (.composed name n) args).eval host invoke = Eval.fault (.unavailable name) := by
  have absent : host.body? n = none :=
    Option.eq_none_iff_forall_ne_some.mpr fun p found => gone ((serves n p).mp found).1
  simp only [eval, Eval.call, absent]

/-- What is compiled against a table where a history has come to: a text, or the body of one of the
functions that its last request has registered. -/
inductive Compiled (history : List Request) (table : String) : Program → Prop
  | text {settings : Settings} {params : List String} {text : String} {p : Program}
      (compiled : compile ((empty.run history).tables table) settings params text = .ok p) :
      Compiled history table p
  | body {before : List Request} {owner n : Nat} {group : List Definition} {f : Composed}
      (last : history = before ++ [⟨table, .define owner group⟩])
      (fresh : (empty.run before).functions.size ≤ n)
      (found : (empty.run history).functions[n]? = some f) : Compiled history table f.program

theorem Compiled.compile {p : Program} (compiled : Compiled history table p) :
    ∃ settings params text,
      compile ((empty.run history).tables table) settings params text = .ok p := by
  cases compiled with
  | text compiled => exact ⟨_, _, _, compiled⟩
  | @body before owner n group f last fresh found =>
      subst last
      rw [run_append] at found ⊢
      have adds : ((empty.run before).registry table).Adds (.define owner group) owner f.name n :=
        Registry.adds_of_fresh fresh found
      have state := (empty.run before).registry_after_self ⟨table, .define owner group⟩
      obtain ⟨f', settings, body, found', -, compiled⟩ := adds.composed
      obtain rfl := Option.some.inj (found'.symm.trans found)
      rw [← state] at compiled
      exact ⟨settings, _, body, compiled⟩

/-- The name of a call stands for its function where it is compiled. -/
theorem Compiled.call {p : Program} (compiled : Compiled history table p)
    (inside : .call (.composed name n) args ∈ p.tree.nodes) :
    ((empty.run history).tables table).find? name = some (.function (.composed n args.length)) ∧
      ((empty.run history).registry table).Holds name n := by
  obtain ⟨settings, params, text, compiled⟩ := compiled.compile
  have stands := compile_call compiled inside
  exact ⟨stands, .table ⟨args.length, Named.mem_of_lookup_eq_some stands⟩⟩

/-- A call goes to the function that its name stood for where it was compiled. Whatever happens
afterwards, it runs the body of that function if the table or one of its compositors still holds the
function, and is the fault that the name is unavailable if none of them does. It stays that fault:
what is gone never comes back, and a function is gone as soon as the compositor that knows it has
taken it back. -/
theorem call_runs_its_own {p : Program} (compiled : Compiled history table p)
    (inside : .call (.composed name n) args ∈ p.tree.nodes) :
    ∃ d, ((empty.run history).tables table).find? name =
        some (.function (.composed n args.length)) ∧
      (empty.run history).functions[n]? = some d ∧ d.name = name ∧
      ∀ later, let e := empty.run (history ++ later)
        (∀ host invoke, Host.Serves host e →
          let called := (Tree.call (.composed name n) args).eval host invoke
          ((e.registry table).Holds name n → called = do
            let vs ← evalList host invoke args
            return .scalar (← invoke name d.program (vs.map Value.asScalar))) ∧
          (¬ (e.registry table).Holds name n → called = Eval.fault (.unavailable name))) ∧
        (¬ (e.registry table).Holds name n →
          ∀ rest, ¬ ((empty.run (history ++ later ++ rest)).registry table).Holds name n) ∧
        ∀ owner r, (e.compositors table owner).find? name = some n →
          Registry.perform (.undefine owner name) (e.registry table) = .ok () r →
          ∀ rest, ¬ ((empty.run (history ++ later ++
            ⟨table, .undefine owner name⟩ :: rest)).registry table).Holds name n := by
  obtain ⟨stands, bound⟩ := compiled.call inside
  have start : (empty.run history).Accounted := accounted_run accounted_empty history
  obtain ⟨d, found, named⟩ := start.named bound
  refine ⟨d, stands, found, named, fun later => ?_⟩
  intro e
  have came : e = (empty.run history).run later := run_append empty history later
  have accounted : e.Accounted := accounted_run accounted_empty _
  have held : e.Held n ↔ (e.registry table).Holds name n := by
    rw [came]
    exact start.held_run_iff bound later
  have kept : e.functions[n]? = some d := by
    rw [came]
    exact function_run found later
  have numbered : n < e.functions.size := (Array.getElem?_eq_some_iff.mp kept).1
  refine ⟨fun host invoke serves => ⟨fun holds => ?_, fun gone => ?_⟩, ?_, ?_⟩
  · exact eval_call_of_held serves kept (held.mpr holds) invoke
  · exact eval_call_of_gone serves (mt held.mp gone) invoke
  · intro gone rest
    rw [run_append]
    exact fun holds => gone_for_good (mt held.mp gone) numbered rest ⟨table, name, holds⟩
  · intro owner r known taken rest
    have gone := undefine_gone accounted known taken
    have grown := e.size_run [⟨table, .undefine owner name⟩]
    rw [run_append]
    exact fun holds =>
      gone_for_good gone (Nat.lt_of_lt_of_le numbered grown) rest ⟨table, name, holds⟩

/-- A function is taken back and another compositor registers one under its name. A body that was
compiled together with the first function ran it before, and does not run the other one. -/
theorem call_runs_its_own_of_redefinition :
    let history : List Request := [⟨"t", .define 0 [⟨"g", [], "f()"⟩, ⟨"f", [], "1"⟩]⟩]
    let later : List Request := [⟨"t", .undefine 0 "f"⟩, ⟨"t", .define 1 [⟨"f", [], "2"⟩]⟩]
    ((empty.run (history ++ later)).tables "t").find? "f" = some (.function (.composed 2 0)) ∧
    ∃ g f args, (empty.run history).functions[0]? = some g ∧
      .call (.composed "f" 1) args ∈ g.program.tree.nodes ∧
      (empty.run history).functions[1]? = some f ∧
      (∀ host invoke, Host.Serves host (empty.run history) →
        (Tree.call (.composed "f" 1) args).eval host invoke = do
          let vs ← evalList host invoke args
          return .scalar (← invoke "f" f.program (vs.map Value.asScalar))) ∧
      ∀ host invoke, Host.Serves host (empty.run (history ++ later)) →
        (Tree.call (.composed "f" 1) args).eval host invoke = Eval.fault (.unavailable "f") := by
  intro history later
  have calls : (empty.run history).functions[0]?.map
      (fun g => g.program.tree.nodes.flatMap Tree.calls) = some [1] := by
    decide +kernel
  have called : (empty.run history).functions[1]?.map Composed.name = some "f" := by decide +kernel
  obtain ⟨g, found, numbers⟩ := Option.map_eq_some_iff.mp calls
  obtain ⟨node, inside, number⟩ := List.mem_flatMap.mp (numbers ▸ List.mem_singleton_self 1)
  obtain ⟨name, args, rfl⟩ := Tree.mem_calls.mp number
  have compiled : Compiled history "t" g.program :=
    .body (show history = [] ++ [⟨"t", .define 0 _⟩] from rfl) (Nat.le_refl 0) found
  obtain ⟨f, -, defined, named, all⟩ := call_runs_its_own compiled inside
  obtain rfl : name = "f" := by
    rw [defined, Option.map_some, named] at called
    exact Option.some.inj called
  obtain ⟨now, -, taken⟩ := all []
  obtain ⟨afterwards, -, -⟩ := all later
  refine ⟨by decide +kernel, g, f, args, found, inside, defined, fun host invoke serves => ?_,
    fun host invoke serves => ?_⟩
  · exact (now host invoke serves).1 (compiled.call inside).2
  · have known : ((empty.run history).compositors "t" 0).find? "f" = some 1 := by decide +kernel
    obtain ⟨r, done⟩ : ∃ r, Registry.perform (.undefine 0 "f")
        ((empty.run history).registry "t") = .ok () r :=
      Registry.undefine_accepted known (by decide +kernel) (by decide +kernel)
    have gone := taken 0 r known done [⟨"t", .define 1 [⟨"f", [], "2"⟩]⟩]
    exact (afterwards host invoke serves).2 gone

end Estate

/-- Evaluated in a world that has come from the one in which it was compiled, a call runs its own
function as long as that is live there. -/
theorem World.Follows.call_finds {w w' : World} (reached : w.Reached) (later : w'.Follows w)
    {table text name : String} {settings : Settings} {params : List String} {p : Program} {n : Nat}
    {args : List Tree} (compiled : compile (w.table table) settings params text = .ok p)
    (inside : .call (.composed name n) args ∈ p.tree.nodes) (check : Option Check)
    (limit rounds : Nat) (invoke : Invoke) :
    let host := w'.host check limit rounds
    let called := (Tree.call (.composed name n) args).eval host invoke
    ∃ d, (w.table table).find? name = some (.function (.composed n args.length)) ∧
      w.functions[n]? = some d ∧ d.name = name ∧
      (w'.isLive n = true → called = do
        let vs ← evalList host invoke args
        return .scalar (← invoke name d.program (vs.map Value.asScalar))) ∧
      (w'.isLive n = false → called = Eval.fault (.unavailable name)) := by
  intro host called
  have reached' : w'.Reached := reached.later later
  have live : w'.isLive n = true ↔ w'.estate.Held n := World.isLive_iff reached'.distinct
  have serves := reached'.serves check limit rounds
  have stands := compile_call compiled inside
  obtain ⟨history, came⟩ := reached.estate
  obtain ⟨requests, came'⟩ := later.operated.requests
  have bound : (w.estate.registry table).Holds name n :=
    .table ⟨args.length, Named.mem_of_lookup_eq_some stands⟩
  have accounted : w.estate.Accounted := came ▸ Estate.accounted_run Estate.accounted_empty history
  obtain ⟨d, found, named⟩ := accounted.named bound
  have kept : w'.estate.functions[n]? = some d := came' ▸ Estate.function_run found requests
  refine ⟨d, stands, found, named, fun held => ?_, fun gone => ?_⟩
  · exact Estate.eval_call_of_held serves kept (live.mp held) invoke
  · exact Estate.eval_call_of_gone serves (fun held => by simp [live.mpr held] at gone) invoke

end MathScript
