import MathScript.Proofs.Follows
import MathScript.Proofs.Placed
import MathScript.Proofs.Unfolding

/-!
Signals stay where the text has put them. Evaluation goes as if every loop answered its own body
alone; no break and no continue is left when a body of a function or a program ends. A return ends
the body it stands in, and the results of a program are the list that a return of its own has
noted last.
-/

namespace MathScript

open Flow

/-- A program and the functions it can call keep their signals inside, however the program is
evaluated on this host. -/
structure Host.Contains (host : Host) (program : Program) : Prop where
  /-- It goes as if each loop answered the breaks and continues of its own body, and no others. -/
  loops : ∀ store, host.run program store =
    ⟨outcomeOf (host.course program store), (lastState (host.course program store)).machine.store,
      (lastState (host.course program store)).machine.reports.toList⟩
  /-- No break and no continue comes out of a program or a body. -/
  bodies : ∀ p, (p = program ∨ ∃ n, host.body? n = some p) → ∀ calls m,
    Ends (p.tree.eval host (host.invoke calls)) m (fun _ _ => True)
      fun e _ => e ≠ .next ∧ ∀ payload, e ≠ .leave payload
  /-- A call gives its caller a number, or stops it for good. -/
  calls : ∀ calls name p args m,
    Ends (host.invoke calls name p args) m (fun _ _ => True) fun e _ => e.Fatal
  /-- The caller of a body that returns a list goes on with the first value of the list. -/
  returned : ∀ calls name p args m vs m',
    p.tree.eval host (host.invoke calls) { m with locals := frame p args } =
      .error (.give vs) m' →
    host.invoke (calls + 1) name p args m =
      .ok (vs.head?.getD .null).asScalar { m' with locals := m.locals }
  /-- The results are the list that was returned with no body of a function running. -/
  results : ∀ store v results, (host.run program store).outcome = .finished v results →
    ∀ vs, results = some vs ↔
      ∃ r ∈ host.returns program store, r.running = 0 ∧ r.values = vs
  /-- Such a list is that of a return of the program itself. -/
  nodes : ∀ store, ∀ r ∈ host.returns program store, r.running = 0 →
    r.node ∈ program.tree.nodes

namespace Host

variable {host : Host} {program : Program}
  (bodies : ∀ n p, host.body? n = some p → p.tree.Steered 0)

include bodies

theorem run_course (steered : program.tree.Steered 0) (store : Store) :
    host.run program store =
      ⟨outcomeOf (host.course program store), (lastState (host.course program store)).machine.store,
        (lastState (host.course program store)).machine.reports.toList⟩ := by
  apply run_beside
  rw [Machine.run_kernel]
  exact (follows_body bodies host.limit steered).agree
    (start program store) ⟨start program store, ⟨0, 0, []⟩⟩ rfl

/-- What a body stops with is noted of it, and the body is inside of no loop. -/
theorem body_stops (steered : program.tree.Steered 0) (calls : Nat) (m : Machine) :
    Ends (program.tree.eval host (host.invoke calls)) m (fun _ _ => True)
      fun e _ => ∃ c, Course.Stops 0 program.tree e ⟨0, 0, []⟩ c := by
  have follows := follows_body bodies calls steered
  have same := follows.agree m ⟨m, ⟨0, 0, []⟩⟩ rfl
  have ends := follows.course ⟨m, ⟨0, 0, []⟩⟩
  unfold Ends at *
  cases end_eq : program.tree.eval host (host.invoke calls) m with
  | ok v m' => trivial
  | error e m' =>
      cases end_eq' : program.tree.steer host (host.steered calls) 0 ⟨m, ⟨0, 0, []⟩⟩ with
      | ok w s => simp [end_eq, end_eq', SameEnd] at same
      | error f s =>
          rw [end_eq, end_eq'] at same
          rw [end_eq'] at ends
          obtain ⟨rfl, -⟩ := same
          exact ⟨s.notes, ends⟩

theorem body_contained (steered : program.tree.Steered 0) (calls : Nat) (m : Machine) :
    Ends (program.tree.eval host (host.invoke calls)) m (fun _ _ => True)
      fun e _ => e ≠ .next ∧ ∀ payload, e ≠ .leave payload := by
  refine (body_stops bodies steered calls m).mono (fun _ _ => id) ?_
  rintro e m' ⟨c, stops⟩
  constructor
  · rintro rfl
    exact Nat.lt_irrefl 0 stops.1
  · rintro payload rfl
    exact Nat.lt_irrefl 0 stops.1

/-- A body without returns completes or stops its callers too. -/
theorem body_fatal (steered : program.tree.Steered 0)
    (returnless : ∀ items, Tree.returnList items ∉ program.tree.nodes) (calls : Nat)
    (m : Machine) :
    Ends (program.tree.eval host (host.invoke calls)) m (fun _ _ => True) fun e _ => e.Fatal := by
  refine (body_stops bodies steered calls m).mono (fun _ _ => id) ?_
  rintro e m' ⟨c, stops⟩
  cases e with
  | leave payload => exact Nat.lt_irrefl 0 stops.1
  | next => exact Nat.lt_irrefl 0 stops.1
  | give values =>
      obtain ⟨-, items, -, -, -, inside⟩ := stops
      exact returnless _ inside
  | fault f => trivial
  | tired => trivial

/-- If an evaluation ends with a list, it is the one list that the program itself has returned. -/
theorem returns_given (steered : program.tree.Steered 0) {store : Store} {vs : List Value}
    {s : Beside Course} (given : host.course program store = .error (.give vs) s) :
    ∃ own inner, host.returns program store = own :: inner ∧ own.running = 0 ∧ own.values = vs ∧
      own.node ∈ program.tree.nodes ∧ ∀ r ∈ inner, 0 < r.running := by
  have ends := (follows_body bodies host.limit steered).course ⟨start program store, ⟨0, 0, []⟩⟩
  unfold returns course Ends at *
  rw [given] at ends ⊢
  obtain ⟨c, items, ⟨running, inner, returns, above⟩, after, values, node⟩ := ends
  refine ⟨⟨c.running, items⟩, c.returns, ?_, running, values, node, ?_⟩
  · simp [lastState, after, Course.give]
  · simpa [returns] using above

/-- If it ends without a list, the program itself has returned none. -/
theorem returns_inner (steered : program.tree.Steered 0) {store : Store}
    (other : ∀ vs s, host.course program store ≠ .error (.give vs) s) :
    ∀ r ∈ host.returns program store, 0 < r.running := by
  have ends := (follows_body bodies host.limit steered).course ⟨start program store, ⟨0, 0, []⟩⟩
  have none : ∀ {c : Course}, (⟨0, 0, []⟩ : Course).Since c → ∀ r ∈ c.returns, 0 < r.running := by
    rintro c ⟨-, inner, returns, above⟩
    simpa [returns] using above
  unfold returns course Ends at *
  cases end_eq : program.tree.steer host (host.steered host.limit) 0
      ⟨start program store, ⟨0, 0, []⟩⟩ with
  | ok v s =>
      rw [end_eq] at ends
      exact none ends
  | error e s =>
      rw [end_eq] at ends
      cases e with
      | leave payload => exact none ends.2.2
      | next => exact none ends.2.2
      | give vs => exact absurd end_eq (other vs s)
      | fault f => exact none ends
      | tired => exact none ends

omit bodies in
/-- There are results if and only if an evaluation ends with a list. -/
theorem outcomeOf_finished {σ : Type} {r : EStateM.Result Signal σ Value} {v : Value}
    {results : Option (List Value)} (finished : outcomeOf r = .finished v results) :
    (∃ vs s, r = .error (.give vs) s ∧ results = some vs) ∨
      results = none ∧ ∀ vs s, r ≠ .error (.give vs) s := by
  cases r with
  | ok w s =>
      obtain ⟨-, rfl⟩ := Outcome.finished.inj finished
      exact .inr ⟨rfl, by simp⟩
  | error e s =>
      cases e <;> simp only [outcomeOf, Outcome.finished.injEq, reduceCtorEq] at finished
      case give vs => exact .inl ⟨vs, s, rfl, finished.2.symm⟩
      all_goals exact .inr ⟨finished.2.symm, by simp⟩

theorem results_course (steered : program.tree.Steered 0) (store : Store) {v : Value}
    {results : Option (List Value)}
    (finished : (host.run program store).outcome = .finished v results) (vs : List Value) :
    results = some vs ↔ ∃ r ∈ host.returns program store, r.running = 0 ∧ r.values = vs := by
  rw [run_course bodies steered store] at finished
  rcases outcomeOf_finished finished with ⟨ws, s, given, rfl⟩ | ⟨rfl, other⟩
  · obtain ⟨own, inner, returns_eq, topmost, values, -, above⟩ :=
      returns_given bodies steered given
    rw [returns_eq]
    constructor
    · rintro ⟨⟩
      exact ⟨own, List.mem_cons_self .., topmost, values⟩
    · rintro ⟨r, member, zero, rfl⟩
      rcases List.mem_cons.mp member with rfl | called
      · rw [values]
      · exact absurd (above r called) (by omega)
  · have above := returns_inner bodies steered other
    constructor
    · rintro ⟨⟩
    · rintro ⟨r, member, zero, -⟩
      exact absurd (above r member) (by omega)

theorem nodes_course (steered : program.tree.Steered 0) (store : Store) :
    ∀ r ∈ host.returns program store, r.running = 0 → r.node ∈ program.tree.nodes := by
  intro r member topmost
  by_cases given : ∃ vs s, host.course program store = .error (.give vs) s
  · obtain ⟨vs, s, given⟩ := given
    obtain ⟨own, inner, returns_eq, -, -, node, above⟩ := returns_given bodies steered given
    rw [returns_eq] at member
    rcases List.mem_cons.mp member with rfl | called
    · exact node
    · exact absurd (above r called) (by omega)
  · have other : ∀ vs s, host.course program store ≠ .error (.give vs) s :=
      fun vs s same => given ⟨vs, s, same⟩
    exact absurd (returns_inner bodies steered other r member) (by omega)

omit bodies in
/-- Whatever signal a body ends with, only a fault or too many rounds get past its call. -/
theorem invoke_fatal (calls : Nat) (name : String) (p : Program) (args : List Float)
    (m : Machine) :
    Ends (host.invoke calls name p args) m (fun _ _ => True) fun e _ => e.Fatal := by
  cases calls with
  | zero => trivial
  | succ calls =>
      simp only [Host.invoke, Host.enter, Ends, Flow.enter]
      cases p.tree.eval host (host.invoke calls) { m with locals := frame p args } with
      | ok v m' => trivial
      | error e m' => cases e <;> trivial

omit bodies in
theorem invoke_give {calls : Nat} {p : Program} {args : List Float} {m m' : Machine}
    {vs : List Value} (gives : p.tree.eval host (host.invoke calls)
      { m with locals := frame p args } = .error (.give vs) m') (name : String) :
    host.invoke (calls + 1) name p args m =
      .ok (vs.head?.getD .null).asScalar { m' with locals := m.locals } := by
  simp only [Host.invoke, Host.enter, Flow.enter, gives]

theorem contains (steered : program.tree.Steered 0) : host.Contains program where
  loops := run_course bodies steered
  bodies := by
    rintro p (rfl | ⟨n, found⟩) calls m
    · exact body_contained bodies steered calls m
    · exact body_contained bodies (bodies n p found) calls m
  calls := invoke_fatal
  returned _ name _ _ _ _ _ gives := invoke_give gives name
  results store _ _ finished := results_course bodies steered store finished
  nodes := nodes_course bodies steered

end Host

/-- Signals stay where the parser has put them: a program compiled in some state of a world and
evaluated in a later one keeps them inside, and so does every function it can call. -/
theorem signals_contained {w w' : World} (reached : w.Reached) (later : w'.Follows w)
    {table text : String} {settings : Settings} {program : Program}
    (compiled : compile (w.table table) settings [] text = .ok program)
    (check : Option Check) (limit rounds : Nat) :
    (w'.host check limit rounds).Contains program :=
  Host.contains (fun _ _ found => (later.since reached.sound).sound.bodies_steered found)
    (compile_compiled compiled).steered

/-- The condition of an inner loop breaks the outer one, and what follows returns the number that
a function has returned from a loop of its own. -/
theorem signals_contained_of_condition :
    let w := World.empty.run
      [.define "t" [⟨"half", ["x"], "while (1) if (x > 8) return [x / 2] else x += 1"⟩]]
    let w' := w.run [.freeze "t"]
    ∃ program,
      compile (w.table "t") {} []
        "var n := 0; repeat while (if (n > 2) break else 0) 0; n += 1 until (0); return [half(n)]" =
          .ok program ∧
      (w'.host none 100 1000).Contains program := by
  intro w w'
  have accepted : (compile (w.table "t") {} []
      "var n := 0; repeat while (if (n > 2) break else 0) 0; n += 1 until (0); return [half(n)]"
      ).toOption.isSome = true := by
    decide +kernel
  obtain ⟨program, compiled⟩ := compile_accepted accepted
  exact ⟨program, compiled,
    signals_contained ⟨_, rfl⟩ ⟨[.freeze "t"], rfl⟩ compiled none 100 1000⟩

end MathScript
