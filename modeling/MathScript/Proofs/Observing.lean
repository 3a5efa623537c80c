import MathScript.Proofs.Beside

/-!
A check observes or stops. A check that lets every access pass changes nothing but what has been
reported. One that ends the evaluation does so at the first access that the other one lets pass,
and up to there nothing differs; what is seen at an access is noted beside the machine, so that
the moment of the first one can be spoken of when the evaluation is over.
-/

namespace MathScript

def Host.checked (host : Host) (check : Option Check) : Host := { host with check := check }

/-- The kernel of the machine, with the natives of a host and a check of its own. -/
theorem Machine.kernel_checked (host : Host) (check : Option Check) :
    kernel (host.checked check) =
      (Acts.through (fun x => x) (Eval.report check) host).kernel Host.enter := by
  rw [← Acts.Machine.kernel_machine, ← Acts.through_id]
  rw [Acts.through_natives (host.checked check) host rfl]
  rfl

theorem Store.setMemory_memory (s : Store) (m : Memory) : s.setMemory m (s.memory m) = s := by
  have same : s.memories.setIfInBounds m.index (s.memories.getD m.index 0) = s.memories := by
    apply Array.ext
    · exact Array.size_setIfInBounds
    · intro i _ inside
      by_cases at_ : m.index = i
      · subst at_
        simp [inside]
      · exact Array.getElem_setIfInBounds_ne inside at_
  simp only [setMemory, memory, same]

section

variable (memory : Memory) (b : Binding) (length : Nat) (index : Int) (m : Machine)

theorem report_log :
    Eval.report (some ⟨Judge.log, memory⟩) b length index m =
      .ok () (m.reporting (m.reports.push ⟨b.name, index, length⟩)) := by
  change EStateM.Result.ok () (Machine.reporting (m.setMemory memory (m.store.memory memory)) _) = _
  simp only [Machine.setMemory, Store.setMemory_memory]

theorem report_abort :
    Eval.report (some ⟨Judge.abort, memory⟩) b length index m =
      .error (.fault (.vectorAccess b.name index length))
        (m.reporting (m.reports.push ⟨b.name, index, length⟩)) := by
  change EStateM.Result.error _ (Machine.reporting (m.setMemory memory (m.store.memory memory)) _) =
    _
  simp only [Machine.setMemory, Store.setMemory_memory]
  rfl

end

/-- What acts through deaf steps runs in lockstep with one check and with another, if reports
do. -/
theorem Acts.through_runs {σ τ : Type} {Rel : ∀ {α : Type}, Flow σ α → Flow τ α → Prop}
    {lift : ∀ {α : Type}, Eval α → Flow σ α} {lift' : ∀ {α : Type}, Eval α → Flow τ α}
    {report : Binding → Nat → Int → Flow σ Unit} {report' : Binding → Nat → Int → Flow τ Unit}
    {ea : Program → List Float → Flow σ Value → Flow σ Float}
    {eb : Program → List Float → Flow τ Value → Flow τ Float}
    (l : Lockstep Rel) (host : Host) (check check' : Option Check)
    (deaf : ∀ {α : Type} (x : Eval α), Deaf x → Rel (lift x) (lift' x))
    (reports : ∀ b length index, Rel (report b length index) (report' b length index))
    (enters : ∀ p args x y, Rel x y → Rel (ea p args x) (eb p args y))
    (refused : ∀ name, Rel (throw (.fault (.recursionLimit name host.limit)) : Flow σ Float)
      (throw (.fault (.recursionLimit name host.limit))))
    (p : Program) :
    Rel (((through lift report host).kernel ea).run (host.checked check) p)
      (((through lift' report' host).kernel eb).run (host.checked check') p) := by
  apply ((through_inStep host deaf reports).kernel l.toStepwise ea eb).runs l
  · exact .inl rfl
  · exact fun _ => rfl
  · exact enters
  · exact Nat.le_refl _
  · intro name y equal
    rw [equal rfl]
    exact refused name

/-! ### No check and a log -/

theorem logged_unchecked (host : Host) (memory : Memory) (p : Program) :
    Agree (fun logged unchecked => unchecked = logged.reporting #[])
      ((Machine.kernel (host.checked (some ⟨Judge.log, memory⟩))).run
        (host.checked (some ⟨Judge.log, memory⟩)) p)
      ((Machine.kernel (host.checked none)).run (host.checked none) p) := by
  rw [Machine.kernel_checked, Machine.kernel_checked]
  apply Acts.through_runs (agree_lockstep _) host
  · exact fun x deaf => deaf #[]
  · rintro b length index m _ rfl
    rw [report_log]
    exact ⟨rfl, rfl⟩
  · intro p args x y same
    apply Flow.agree_enter same
    · rintro m _ rfl
      rfl
    · rintro m _ m' _ rfl rfl
      rfl
  · exact fun name => agree_throw _

/-! ### Sightings -/

/-- An access and the storage it was found in. -/
abbrev Sighting := Access × Store

namespace Beside

/-- What is reported is noted in front of the report, the newest last. -/
def sight (check : Option Check) (b : Binding) (length : Nat) (index : Int) :
    Flow (Beside (List Sighting)) Unit := do
  note fun m seen => seen ++ [(⟨b.name, index, length⟩, m.store)]
  lift (Eval.report check b length index)

def watching (host : Host) : Kernel (Beside (List Sighting)) :=
  (Acts.through lift (sight host.check) host).kernel (enter id fun _ seen => seen)

end Beside

/-- An evaluation from the top, with every report noted. -/
def Host.watch (host : Host) (program : Program) (store : Store) :
    EStateM.Result Signal (Beside (List Sighting)) Value :=
  (Beside.watching host).run host program ⟨start program store, []⟩

/-- The accesses that an evaluation reports, with the storage each of them was found in. -/
def Host.sightings (host : Host) (program : Program) (store : Store) : List Sighting :=
  (lastState (host.watch program store)).notes

theorem report_reports (c : Check) (b : Binding) (length : Nat) (index : Int) (m : Machine) :
    Ends (Eval.report (some c) b length index) m
      (fun _ m' => m'.reports = m.reports.push ⟨b.name, index, length⟩)
      fun _ m' => m'.reports = m.reports.push ⟨b.name, index, length⟩ := by
  unfold Eval.report
  apply ends_bind
  apply ends_bind
  apply ends_modify
  cases (c.judge (m.store.memory c.memory) ⟨b.name, index, length⟩).1 with
  | none => exact ends_pure rfl
  | some f => exact ends_throw rfl

namespace Beside

variable {γ : Type}

/-- A property of the notes is kept by every step of the machine. -/
theorem keeps_lift {α : Type} (P : γ → Prop) (x : Eval α) :
    Keeps (fun s : Beside γ => P s.notes) (lift x) := by
  intro s held
  unfold Ends lift
  cases x s.machine <;> exact held

/-- A deaf step goes along with notes on what has been reported so far. -/
theorem agree_deaf {α : Type} (Q : γ → Array Access → Prop) {x : Eval α} (deaf : Deaf x) :
    Agree (fun m (s : Beside γ) => s.machine = m ∧ Q s.notes m.reports) x (lift x) := by
  rintro _ s ⟨rfl, noted⟩
  have still := deaf.ends s.machine
  unfold lift
  cases end_eq : x s.machine with
  | ok a m => exact ⟨rfl, rfl, still.of_ok end_eq ▸ noted⟩
  | error e m => exact ⟨rfl, rfl, still.of_error end_eq ▸ noted⟩

/-- What has been noted is what has been reported. -/
def Told (m : Machine) (s : Beside (List Sighting)) : Prop :=
  s.machine = m ∧ s.notes.map Prod.fst = m.reports.toList

/-- Notes that go along with a report keep telling what has been reported. -/
theorem agree_report (Q : γ → Array Access → Prop) (f : Machine → γ → γ) (c : Check) (b : Binding)
    (length : Nat) (index : Int)
    (pushed : ∀ m seen, Q seen m.reports → Q (f m seen) (m.reports.push ⟨b.name, index, length⟩)) :
    Agree (fun m (s : Beside γ) => s.machine = m ∧ Q s.notes m.reports)
      (Eval.report (some c) b length index) (do
        note f
        lift (Eval.report (some c) b length index)) := by
  rintro _ s ⟨rfl, told⟩
  have reported := report_reports c b length index s.machine
  have told' := pushed s.machine s.notes told
  change SameEnd _ _ (lift (Eval.report (some c) b length index) _)
  unfold lift
  cases end_eq : Eval.report (some c) b length index s.machine with
  | ok a m => exact ⟨rfl, rfl, reported.of_ok end_eq ▸ told'⟩
  | error e m => exact ⟨rfl, rfl, reported.of_error end_eq ▸ told'⟩

theorem agree_sight (c : Check) (b : Binding) (length : Nat) (index : Int) :
    Agree Told (Eval.report (some c) b length index) (sight (some c) b length index) :=
  agree_report (fun (seen : List Sighting) reports => seen.map Prod.fst = reports.toList) _ c b
    length index fun m seen told => by simp [told]

end Beside

/-- Whoever watches an evaluation does not change it, and notes what is reported. -/
theorem Host.watch_told (host : Host) (c : Check) (p : Program) (store : Store) :
    SameEnd Beside.Told
      ((Machine.kernel (host.checked (some c))).run (host.checked (some c)) p (start p store))
      ((host.checked (some c)).watch p store) := by
  rw [Machine.kernel_checked]
  refine Acts.through_runs (agree_lockstep Beside.Told) host (some c) (some c) (fun x deaf => ?_)
    (Beside.agree_sight c) ?_ (fun name => agree_throw _) p _ _ ⟨rfl, rfl⟩
  · exact Beside.agree_deaf
      (fun (seen : List Sighting) reports => seen.map Prod.fst = reports.toList) deaf
  · intro p args x y same
    apply Flow.agree_enter same
    · rintro _ s ⟨rfl, told⟩
      exact ⟨rfl, told⟩
    · rintro _ s _ s' ⟨rfl, -⟩ ⟨rfl, told⟩
      exact ⟨rfl, told⟩

/-! ### The first access -/

/-- Nothing has been reported. -/
def Beside.Unseen (m : Machine) (s : Beside (List Sighting)) : Prop :=
  s.machine = m ∧ s.notes = [] ∧ m.reports = #[]

/-- The one has been stopped at the access that the other saw first, in the storage the other
had then. -/
def Beside.Caught (e : Signal) (m : Machine) (s : Beside (List Sighting)) : Prop :=
  ∃ a : Access, e = .fault a.fault ∧ m.reports = #[a] ∧ s.notes.head? = some (a, m.store)

namespace Beside

theorem keeps_caught {α : Type} (e : Signal) (m : Machine) (x : Eval α) :
    Keeps (Caught e m) (lift x) :=
  keeps_lift (fun seen : List Sighting => ∃ a : Access, e = .fault a.fault ∧ m.reports = #[a] ∧
    seen.head? = some (a, m.store)) x

theorem curtails_sight (memory : Memory) (b : Binding) (length : Nat) (index : Int) :
    Curtails Unseen Caught (Eval.report (some ⟨Judge.abort, memory⟩) b length index)
      (sight (some ⟨Judge.log, memory⟩) b length index) where
  stays e m := by
    refine keeps_bind ?_ fun _ => keeps_caught e m _
    rintro s ⟨a, fault, reports, first⟩
    -- The oldest sighting stays in front of a newer one.
    exact ends_modify ⟨a, fault, reports, by simp [first]⟩
  alike_or_early m s := by
    rintro ⟨rfl, unseen, silent⟩
    refine .inr ⟨_, _, report_abort memory b length index s.machine, trivial, ?_⟩
    unfold sight
    apply ends_bind
    apply ends_modify
    unfold Ends lift
    rw [report_log]
    exact ⟨⟨b.name, index, length⟩, rfl, by simp [silent], by simp [unseen]⟩

theorem curtails_deaf {α : Type} {x : Eval α} (deaf : Deaf x) :
    Curtails Unseen Caught x (lift x) :=
  .of_agree (agree_deaf (fun seen reports => seen = [] ∧ reports = #[]) deaf) fun e m =>
    keeps_caught e m x

end Beside

/-- The run that is ended at an access is cut short there; otherwise nothing differs. -/
theorem stopped_watched (host : Host) (memory : Memory) (p : Program) :
    Curtails Beside.Unseen Beside.Caught
      ((Machine.kernel (host.checked (some ⟨Judge.abort, memory⟩))).run
        (host.checked (some ⟨Judge.abort, memory⟩)) p)
      ((Beside.watching (host.checked (some ⟨Judge.log, memory⟩))).run
        (host.checked (some ⟨Judge.log, memory⟩)) p) := by
  rw [Machine.kernel_checked]
  apply Acts.through_runs (curtails_lockstep Beside.Unseen Beside.Caught) host
  · exact fun x deaf => Beside.curtails_deaf deaf
  · exact Beside.curtails_sight memory
  · intro p args x y same
    apply same.enter
    · rintro _ s ⟨rfl, unseen⟩
      exact ⟨rfl, unseen⟩
    · rintro _ s _ s' ⟨rfl, -⟩ ⟨rfl, unseen⟩
      exact ⟨rfl, unseen⟩
    · exact fun _ _ _ _ _ _ caught => caught
    · exact fun _ _ _ caught => caught
    · exact fun _ _ _ _ _ caught => caught
  · exact fun name => .of_agree (agree_throw _) fun _ _ => keeps_throw _

/-! ### Rounds -/

def Host.allowed (host : Host) (rounds : Nat) : Host := { host with rounds := rounds }

/-- An evaluation that does not end, whatever number of rounds a loop may take. -/
def Host.Diverges (host : Host) (program : Program) (store : Store) : Prop :=
  ∀ rounds, ((host.allowed rounds).run program store).outcome = .tired

/-- An evaluation that ends does so alike with more rounds to go. -/
theorem Host.run_allowed (host : Host) {rounds more : Nat} (fewer : rounds ≤ more) (p : Program)
    (store : Store) (ended : ((host.allowed rounds).run p store).outcome ≠ .tired) :
    (host.allowed more).run p store = (host.allowed rounds).run p store := by
  have same : Curtails Eq (fun e (_ _ : Machine) => e = .tired)
      ((Machine.kernel host).run (host.allowed rounds) p)
      ((Machine.kernel host).run (host.allowed more) p) := by
    apply (Kernel.InStep.self curtails_self _).runs (curtails_lockstep _ _)
    · refine .inr ⟨fewer, fun y => ?_⟩
      exact .stopped (e := .tired) trivial (fun _ _ _ => rfl) (curtails_self y).stays
    · exact fun _ => rfl
    · intro q args x y same
      apply same.enter <;> simp +contextual
    · exact Nat.le_refl _
    · intro name y equal
      rw [equal rfl]
      exact curtails_self _
  rw [run_eq] at ended
  rw [run_eq, run_eq]
  rcases same.ends rfl with alike | ⟨e, m, stopped, rfl⟩
  · exact congrArg reportOf alike.eq.symm
  · exact absurd (congrArg outcomeOf stopped) ended

/-! ### Observing or stopping -/

namespace Host

variable (host : Host) (memory : Memory) (p : Program) (store : Store)

theorem run_unchecked :
    (host.checked none).run p store =
      { (host.checked (some ⟨Judge.log, memory⟩)).run p store with accesses := [] } := by
  have same := logged_unchecked host memory p (start p store) _ rfl
  have store_eq := congrArg Machine.store same.state
  have silent := congrArg (fun m : Machine => m.reports.toList) same.state
  rw [run_eq, run_eq]
  exact reportOf_eq same.outcome.symm store_eq silent

/-- An evaluation with a check, read off the same evaluation with its sightings noted. -/
theorem run_watched (c : Check) :
    (host.checked (some c)).run p store =
      ⟨outcomeOf ((host.checked (some c)).watch p store),
        (lastState ((host.checked (some c)).watch p store)).machine.store,
        ((host.checked (some c)).sightings p store).map Prod.fst⟩ := by
  have same := watch_told host c p store
  obtain ⟨machine_eq, told⟩ := same.state
  rw [run_eq]
  exact reportOf_eq same.outcome (congrArg Machine.store machine_eq.symm) told.symm

/-- What becomes of an evaluation that is ended at its first access outside of a vector. -/
theorem run_stopped :
    (host.checked (some ⟨Judge.abort, memory⟩)).run p store =
      match (host.checked (some ⟨Judge.log, memory⟩)).sightings p store with
      | [] => (host.checked (some ⟨Judge.log, memory⟩)).run p store
      | (a, found) :: _ => ⟨.faulted a.fault, found, [a]⟩ := by
  rw [run_eq]
  rcases (stopped_watched host memory p).ends (s := start p store) (t := ⟨start p store, []⟩)
    ⟨rfl, rfl, rfl⟩ with alike | ⟨e, m, stopped, a, rfl, reports, first⟩
  · obtain ⟨machine_eq, unseen, silent⟩ := alike.state
    have none_seen : (host.checked (some ⟨Judge.log, memory⟩)).sightings p store = [] := unseen
    rw [run_watched host p store ⟨Judge.log, memory⟩, none_seen]
    exact reportOf_eq alike.outcome (congrArg Machine.store machine_eq.symm)
      (congrArg Array.toList silent)
  · have seen : ((host.checked (some ⟨Judge.log, memory⟩)).sightings p store).head? =
        some (a, m.store) := first
    obtain ⟨rest, seen⟩ := List.head?_eq_some_iff.mp seen
    rw [seen, stopped]
    exact reportOf_eq rfl rfl (congrArg Array.toList reports)

theorem stopped_tires :
    ((host.checked (some ⟨Judge.abort, memory⟩)).run p store).outcome = .tired ↔
      ((host.checked (some ⟨Judge.log, memory⟩)).run p store).outcome = .tired ∧
        (host.checked (some ⟨Judge.log, memory⟩)).sightings p store = [] := by
  rw [run_stopped]
  cases (host.checked (some ⟨Judge.log, memory⟩)).sightings p store with
  | nil => simp
  | cons first rest => simp

end Host

/-- Without a check and with a log an evaluation ends alike and leaves the same storage. With a
check that ends it at an access it does so too, as long as the log is empty; otherwise it ends
at the first access of the log, in the storage the logging evaluation had when it came to it. -/
theorem check_observes_or_stops (host : Host) (memory : Memory) (p : Program) (store : Store) :
    let unchecked := host.checked none
    let logging := host.checked (some ⟨Judge.log, memory⟩)
    let stopping := host.checked (some ⟨Judge.abort, memory⟩)
    unchecked.run p store = { logging.run p store with accesses := [] } ∧
    (unchecked.Diverges p store ↔ logging.Diverges p store) ∧
    logging.run p store =
      ⟨Host.outcomeOf (logging.watch p store), (lastState (logging.watch p store)).machine.store,
        (logging.sightings p store).map Prod.fst⟩ ∧
    (stopping.run p store =
      match logging.sightings p store with
      | [] => logging.run p store
      | (a, found) :: _ => ⟨.faulted a.fault, found, [a]⟩) ∧
    (stopping.Diverges p store ↔ logging.Diverges p store ∧
      ∀ rounds, (logging.allowed rounds).sightings p store = []) := by
  refine ⟨host.run_unchecked memory p store, ?_, host.run_watched p store _,
    host.run_stopped memory p store, ?_⟩
  · have same := fun rounds => congrArg (fun r => r.outcome = .tired)
      ((host.allowed rounds).run_unchecked memory p store)
    exact forall_congr' fun rounds => iff_of_eq (same rounds)
  · have tires := fun rounds => (host.allowed rounds).stopped_tires memory p store
    exact (forall_congr' tires).trans forall_and

end MathScript
