import MathScript.Proofs.Acts
import MathScript.Proofs.Curtail
import MathScript.Proofs.Meaning

/-!
Notes beside a machine. What is to be known of an evaluation and is not in the state of the
machine is noted beside it: the machine takes its steps and the notes go along. All that a
machine does, but for reporting an access, is deaf: it neither looks at what has been reported
nor changes it.
-/

namespace MathScript

namespace Machine

def reporting (m : Machine) (reports : Array Access) : Machine := { m with reports := reports }

@[simp] theorem reporting_store (m : Machine) (reports : Array Access) :
    (m.reporting reports).store = m.store := rfl

@[simp] theorem reporting_reports (m : Machine) (reports : Array Access) :
    (m.reporting reports).reports = reports := rfl

end Machine

/-- A step that ends alike whatever has been reported, and leaves that as it was. -/
def Deaf {α : Type} (x : Eval α) : Prop :=
  ∀ reports, Agree (fun m m' => m' = m.reporting reports) x x

namespace Deaf

variable {α : Type} {x : Eval α}

theorem modify {f : Machine → Machine}
    (same : ∀ m reports, f (m.reporting reports) = (f m).reporting reports) :
    Deaf (modify f : Eval PUnit) := by
  rintro reports m _ rfl
  exact ⟨rfl, same m reports⟩

theorem ends (deaf : Deaf x) (m : Machine) :
    Ends x m (fun _ m' => m'.reports = m.reports) fun _ m' => m'.reports = m.reports :=
  ((deaf m.reports).fixed rfl).mono (fun _ _ => congrArg Machine.reports)
    fun _ _ => congrArg Machine.reports

variable (host : Host)

theorem read (p : Place) : Deaf ((Acts.machine host).read p) := by
  rintro reports m _ rfl
  cases p <;> exact ⟨rfl, rfl⟩

theorem setScalar (p : Place) (x : Float) : Deaf ((Acts.machine host).setScalar p x) :=
  Deaf.modify fun _ _ => by cases p <;> rfl

theorem modifyVector (p : Place) (f : Array Float → Array Float) :
    Deaf ((Acts.machine host).modifyVector p f) :=
  Deaf.modify fun _ _ => by cases p <;> rfl

theorem modifyString (p : Place) (f : String → String) :
    Deaf ((Acts.machine host).modifyString p f) :=
  Deaf.modify fun _ _ => by cases p <;> rfl

theorem declare (slot : Nat) (v : Value) : Deaf ((Acts.machine host).declare slot v) :=
  Deaf.modify fun _ _ => rfl

theorem numeric (native : Nat) (vs : List Value) :
    Deaf ((Acts.machine host).numeric native vs) := by
  rintro reports m _ rfl
  simp only [Acts.machine, Eval.callNumeric, Machine.reporting_store]
  split <;> exact ⟨rfl, rfl⟩

theorem ask (native overload : Nat) (vs : List Value) :
    Deaf ((Acts.machine host).ask native overload vs) := by
  intro reports
  have asked : Agree (fun m m' => m' = Machine.reporting m reports)
      (Eval.ask host native overload vs) (Eval.ask host native overload vs) := by
    rintro m _ rfl
    simp only [Eval.ask, Machine.reporting_store]
    split <;> exact ⟨rfl, rfl⟩
  apply agree_bind asked
  rintro (_ | ⟨f | x, params, _⟩)
  · exact agree_pure _
  · exact agree_throw _
  · exact agree_pure _

end Deaf

/-! ### Faults of the host -/

/-- A generic function of the host may reply so, whatever it is asked. -/
def Host.Replies (host : Host) (r : Reply) : Prop :=
  ∃ (native overload kept : Nat) (params : List Param) (signature : String)
    (run : Nat → Nat → List Param → Reply) (memory : Memory),
    host.natives[native]? = some ⟨.generic signature run, memory⟩ ∧ run kept overload params = r

/-- A generic function or the check of the host may answer with this fault. -/
def Host.HandsOut (host : Host) (f : Fault) : Prop :=
  (∃ r, host.Replies r ∧ r.result = .error f) ∨
    ∃ c, host.check = some c ∧ ∃ kept access, (c.judge kept access).1 = some f

/-- A step that stops for nothing but a fault of the host. -/
def Host.Raises (host : Host) {α : Type} (x : Eval α) : Prop :=
  ∀ m, Ends x m (fun _ _ => True) fun e _ => ∃ f, e = .fault f ∧ host.HandsOut f

namespace Host

variable (host : Host)

theorem raises_of_ok {α : Type} {x : Eval α} (fine : ∀ m, ∃ a m', x m = .ok a m') :
    host.Raises x := by
  intro m
  obtain ⟨a, m', ok⟩ := fine m
  unfold Ends
  rw [ok]
  trivial

theorem ends_ask (native overload : Nat) (vs : List Value) (m : Machine) :
    Ends (Eval.ask host native overload vs) m (fun r _ => ∀ reply, r = some reply →
      host.Replies reply) fun _ _ => False := by
  unfold Ends Eval.ask
  cases found : host.natives[native]? with
  | none => simp
  | some registered =>
      obtain ⟨function, memory⟩ := registered
      cases function with
      | scalar arity run => simp
      | vararg run => simp
      | generic signature run =>
          rintro _ ⟨⟩
          exact ⟨native, overload, _, _, signature, run, memory, found, rfl⟩

theorem raises_ask (native overload : Nat) (vs : List Value) :
    host.Raises ((Acts.machine host).ask native overload vs) := by
  intro m
  apply ends_bind
  have asked := host.ends_ask native overload vs m
  refine asked.mono (fun reply m' replied => ?_) fun _ _ => False.elim
  match reply with
  | none => exact ends_pure trivial
  | some ⟨.ok x, params, _⟩ => exact ends_pure trivial
  | some ⟨.error f, params, kept⟩ => exact ends_throw ⟨f, rfl, .inl ⟨_, replied _ rfl, rfl⟩⟩

theorem raises_report (b : Binding) (length : Nat) (index : Int) :
    host.Raises (Eval.report host.check b length index) := by
  intro m
  unfold Eval.report
  cases found : host.check with
  | none => trivial
  | some c =>
      apply ends_bind
      apply ends_bind
      apply ends_modify
      cases verdict : (c.judge (m.store.memory c.memory) ⟨b.name, index, length⟩).1 with
      | none => exact ends_pure trivial
      | some f => exact ends_throw ⟨f, rfl, .inr ⟨c, found, _, _, verdict⟩⟩

theorem raises_numeric (native : Nat) (vs : List Value) :
    host.Raises ((Acts.machine host).numeric native vs) := by
  intro m
  simp only [Ends, Acts.machine, Eval.callNumeric]
  cases host.natives[native]? with
  | none => trivial
  | some registered =>
      obtain ⟨function, memory⟩ := registered
      cases function <;> trivial

end Host

namespace Acts

variable {σ τ : Type}

/-- The acts of a machine taken over to another state, but for the report of an access. -/
def through (lift : ∀ {α : Type}, Eval α → Flow σ α) (report : Binding → Nat → Int → Flow σ Unit)
    (host : Host) : Acts σ where
  read p := lift ((machine host).read p)
  setScalar p x := lift ((machine host).setScalar p x)
  modifyVector p f := lift ((machine host).modifyVector p f)
  modifyString p f := lift ((machine host).modifyString p f)
  declare slot v := lift ((machine host).declare slot v)
  numeric native vs := lift ((machine host).numeric native vs)
  ask native overload vs := lift ((machine host).ask native overload vs)
  report := report

theorem through_id (host : Host) :
    through (fun x => x) (Eval.report host.check) host = machine host := rfl

/-- Only natives and the check of a host have a part in what is acted. -/
theorem through_natives {lift : ∀ {α : Type}, Eval α → Flow σ α}
    {report : Binding → Nat → Int → Flow σ Unit} (host host' : Host)
    (same : host.natives = host'.natives) :
    through lift report host = through lift report host' := by
  have numeric_eq : Eval.callNumeric host = Eval.callNumeric host' := by
    funext native vs
    exact Machine.callNumeric_eq same native vs
  have ask_eq : Eval.ask host = Eval.ask host' := by
    funext native overload vs
    exact Machine.ask_eq same native overload vs
  simp only [through, machine, answer, numeric_eq, ask_eq]

theorem through_inStep {Rel : ∀ {α : Type}, Flow σ α → Flow τ α → Prop}
    {lift : ∀ {α : Type}, Eval α → Flow σ α} {lift' : ∀ {α : Type}, Eval α → Flow τ α}
    {report : Binding → Nat → Int → Flow σ Unit} {report' : Binding → Nat → Int → Flow τ Unit}
    (host : Host) (deaf : ∀ {α : Type} (x : Eval α), Deaf x → Rel (lift x) (lift' x))
    (reports : ∀ b length index, Rel (report b length index) (report' b length index)) :
    (through lift report host).InStep (through lift' report' host) Rel (fun _ => True)
      (fun _ => True) where
  read p _ := deaf _ (.read host p)
  setScalar p x _ := deaf _ (.setScalar host p x)
  modifyVector p f _ := deaf _ (.modifyVector host p f)
  modifyString p f _ := deaf _ (.modifyString host p f)
  declare slot v _ := deaf _ (.declare host slot v)
  numeric native vs := deaf _ (.numeric host native vs)
  ask native overload vs := deaf _ (.ask host native overload vs)
  report := reports

theorem through_raises {Rel : ∀ {α : Type}, Flow σ α → Flow τ α → Prop}
    {lift : ∀ {α : Type}, Eval α → Flow σ α} {lift' : ∀ {α : Type}, Eval α → Flow τ α}
    (host : Host) (raises : ∀ {α : Type} (x : Eval α), host.Raises x → Rel (lift x) (lift' x)) :
    (through lift (fun b length index => lift (Eval.report host.check b length index)) host).InStep
      (through lift' (fun b length index => lift' (Eval.report host.check b length index)) host) Rel
      (fun _ => True) fun _ => True where
  read p _ := raises ((machine host).read p) (host.raises_of_ok fun m => ⟨_, m, rfl⟩)
  setScalar p x _ := raises ((machine host).setScalar p x) (host.raises_of_ok fun _ => ⟨(), _, rfl⟩)
  modifyVector p f _ :=
    raises ((machine host).modifyVector p f) (host.raises_of_ok fun _ => ⟨(), _, rfl⟩)
  modifyString p f _ :=
    raises ((machine host).modifyString p f) (host.raises_of_ok fun _ => ⟨(), _, rfl⟩)
  declare slot v _ :=
    raises ((machine host).declare slot v) (host.raises_of_ok fun _ => ⟨(), _, rfl⟩)
  numeric native vs := raises _ (host.raises_numeric native vs)
  ask native overload vs := raises _ (host.raises_ask native overload vs)
  report b length index := raises _ (host.raises_report b length index)

end Acts

/-- A machine with notes beside it. -/
structure Beside (γ : Type) where
  machine : Machine
  notes : γ

namespace Beside

variable {γ : Type}

/-- A step of the machine; the notes stay as they are. -/
def lift {α : Type} (x : Eval α) : Flow (Beside γ) α := fun s =>
  match x s.machine with
  | .ok a m => .ok a { s with machine := m }
  | .error e m => .error e { s with machine := m }

def note (f : Machine → γ → γ) : Flow (Beside γ) Unit :=
  modify fun s => { s with notes := f s.machine s.notes }

/-- A body is entered as on the machine, with notes made on the way in and on the way out. -/
def enter (inward : γ → γ) (outward : γ → γ → γ) (program : Program) (args : List Float) :
    Flow (Beside γ) Value → Flow (Beside γ) Float :=
  Flow.enter
    (fun s => ⟨{ s.machine with locals := Host.frame program args }, inward s.notes⟩)
    fun before s =>
      ⟨{ s.machine with locals := before.machine.locals }, outward before.notes s.notes⟩

/-- What the machine does, it does with notes beside it. -/
theorem agree_lift {α : Type} (x : Eval α) :
    Agree (fun m (s : Beside γ) => s.machine = m) x (lift x) := by
  rintro _ s rfl
  unfold lift
  cases x s.machine <;> exact ⟨rfl, rfl⟩

/-- A machine with notes beside it acts as the machine. -/
def acts (host : Host) : Acts (Beside γ) :=
  .through lift (fun b length index => lift (Eval.report host.check b length index)) host

theorem acts_inStep (host : Host) : (Acts.machine host).InStep (acts host)
    (fun {α} (x : Eval α) (y : Flow (Beside γ) α) => Agree (fun m s => s.machine = m) x y)
    (fun _ => True) fun _ => True := by
  rw [← Acts.through_id]
  exact Acts.through_inStep host (fun x _ => agree_lift x) fun _ _ _ => agree_lift _

theorem agree_enter (inward : γ → γ) (outward : γ → γ → γ) (program : Program)
    (args : List Float) {x : Eval Value} {y : Flow (Beside γ) Value}
    (same : Agree (fun m s => s.machine = m) x y) :
    Agree (fun m s => s.machine = m) (Host.enter program args x)
      (enter inward outward program args y) := by
  apply Flow.agree_enter same
  · rintro _ s rfl
    rfl
  · rintro _ s _ s' rfl rfl
    rfl

end Beside

/-! ### Runs -/

namespace Host

/-- How an evaluation from the top ended. -/
def outcomeOf {σ : Type} : EStateM.Result Signal σ Value → Outcome
  | .ok v _ => .finished v none
  | .error (.give values) _ => .finished (values.head?.getD .null) (some values)
  | .error (.leave _) _ | .error .next _ => .finished .null none
  | .error (.fault f) _ => .faulted f
  | .error .tired _ => .tired

def reportOf (r : EStateM.Result Signal Machine Value) : Report :=
  ⟨outcomeOf r, (lastState r).store, (lastState r).reports.toList⟩

theorem reportOf_eq {r : EStateM.Result Signal Machine Value} {outcome : Outcome} {store : Store}
    {accesses : List Access} (ended : outcomeOf r = outcome) (left : (lastState r).store = store)
    (reported : (lastState r).reports.toList = accesses) :
    reportOf r = ⟨outcome, store, accesses⟩ := by
  subst ended left reported
  rfl

/-- The machine an evaluation starts from. -/
def start (program : Program) (store : Store) : Machine := ⟨store, frame program [], #[]⟩

theorem run_eq (host : Host) (program : Program) (store : Store) :
    host.run program store =
      reportOf ((Machine.kernel host).run host program (start program store)) := by
  rw [Machine.run_kernel]
  unfold run reportOf start
  cases program.tree.eval host (host.invoke host.limit) ⟨store, frame program [], #[]⟩ with
  | ok v m => rfl
  | error e m => cases e <;> rfl

end Host

theorem SameEnd.outcome {σ τ : Type} {R : σ → τ → Prop} {r : EStateM.Result Signal σ Value}
    {r' : EStateM.Result Signal τ Value} (same : SameEnd R r r') :
    Host.outcomeOf r = Host.outcomeOf r' := by
  cases r <;> cases r' <;> simp only [SameEnd] at same
  case ok.ok v s w t =>
    rw [same.1]
    rfl
  case error.error e s f t =>
    obtain ⟨rfl, -⟩ := same
    cases e <;> rfl

/-- Whoever takes notes beside the machine has the report of an evaluation. -/
theorem Host.run_beside {γ : Type} {host : Host} {program : Program} {store : Store}
    {r : EStateM.Result Signal (Beside γ) Value}
    (same : SameEnd (fun m s => s.machine = m)
      ((Machine.kernel host).run host program (start program store)) r) :
    host.run program store =
      ⟨outcomeOf r, (lastState r).machine.store, (lastState r).machine.reports.toList⟩ := by
  rw [run_eq]
  exact reportOf_eq same.outcome (congrArg Machine.store same.state.symm)
    (congrArg (fun m : Machine => m.reports.toList) same.state.symm)

end MathScript
