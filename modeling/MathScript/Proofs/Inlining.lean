import MathScript.Proofs.Locals
import MathScript.Proofs.Overlay
import MathScript.Proofs.Signals

/-!
Calls and inlining. A call of a function written in the language can be replaced by its body with
every slot shifted to the free part of the caller's frame, where the arguments are put in front.
Both do the same to everything else, unless the call is refused for its depth.
-/

namespace MathScript

open Tree

namespace Machine

/-- Numbers in the slots from `first` on. -/
def fill (m : Machine) (first : Nat) : List Float → Machine
  | [] => m
  | x :: xs => fill (m.declare first (.scalar x)) (first + 1) xs

/-- Machines that differ only in what `count` slots from `first` on hold. -/
structure SameBut (first count : Nat) (m m' : Machine) : Prop where
  store : m'.store = m.store
  reports : m'.reports = m.reports
  size : m'.locals.size = m.locals.size
  around : ∀ j, j < first ∨ first + count ≤ j → m'.locals[j]? = m.locals[j]?

theorem SameBut.refl (first count : Nat) (m : Machine) : SameBut first count m m :=
  ⟨rfl, rfl, rfl, fun _ _ => rfl⟩

variable (m : Machine) (first : Nat) (xs : List Float)

@[simp] theorem fill_store : (m.fill first xs).store = m.store := by
  induction xs generalizing m first with
  | nil => rfl
  | cons x xs ih => exact ih _ _

@[simp] theorem fill_reports : (m.fill first xs).reports = m.reports := by
  induction xs generalizing m first with
  | nil => rfl
  | cons x xs ih => exact ih _ _

@[simp] theorem fill_size : (m.fill first xs).locals.size = m.locals.size := by
  induction xs generalizing m first with
  | nil => rfl
  | cons x xs ih => exact (ih _ _).trans (by simp [declare])

theorem fill_outside {j : Nat} (outside : j < first ∨ first + xs.length ≤ j) :
    (m.fill first xs).locals[j]? = m.locals[j]? := by
  induction xs generalizing m first with
  | nil => rfl
  | cons x xs ih =>
      rw [List.length_cons] at outside
      have apart : first ≠ j := by omega
      rw [fill, ih _ _ (by omega)]
      simp [declare, apart]

theorem slot_fill {i : Nat} {x : Float} (given : xs[i]? = some x)
    (inside : first + i < m.locals.size) : (m.fill first xs).slot (first + i) = .scalar x := by
  induction xs generalizing m first i with
  | nil => simp at given
  | cons y xs ih =>
      cases i with
      | zero =>
          obtain rfl : y = x := by simpa using given
          have there : (fill (m.declare first (.scalar y)) (first + 1) xs).locals[first]? =
              (m.declare first (.scalar y)).locals[first]? := fill_outside _ _ _ (by omega)
          have room : first < m.locals.size := inside
          rw [Nat.add_zero, fill, slot, Array.getD_eq_getD_getElem?, there]
          simp [declare, room]
      | succ i =>
          rw [fill, show first + (i + 1) = first + 1 + i by omega]
          exact ih _ _ (by simpa using given) (by simp [declare]; omega)

/-- A fresh frame lies in a larger one that has the arguments in the same places. -/
theorem laid_fill {k : Nat} {p : Program} (m : Machine) {args : List Float}
    (fits : args.length ≤ p.frameSize) (room : k + p.frameSize ≤ m.locals.size) :
    Laid k p.frameSize m.locals (fun _ => False) { m with locals := Host.frame p args }
      (m.fill k args) where
  store := fill_store m k args
  reports := fill_reports m k args
  size := by
    simp [Host.frame]
    omega
  above := by simpa using room
  total := fill_size m k args
  slots i inside := by
    by_cases argument : i < args.length
    · left
      have given : args[i]? = some args[i] := List.getElem?_eq_getElem argument
      have there : i < (args.map Value.scalar).length := by simpa using argument
      rw [slot_fill m k args given (by omega)]
      simp only [slot, Host.frame, Array.getD_eq_getD_getElem?, List.getElem?_toArray]
      simp [List.getElem?_append_left there, given]
    · right
      have behind : (args.map Value.scalar).length ≤ i := by
        simpa using Nat.le_of_not_lt argument
      have empty : i - args.length < p.frameSize - args.length := by omega
      simp only [slot, Host.frame, Array.getD_eq_getD_getElem?, List.getElem?_toArray]
      simp [List.getElem?_append_right behind, empty]
  around j outside := fill_outside m k args (by omega)

end Machine

namespace Host

/-- A body in place of a call: its arguments in the slots from `k` on, its own slots behind
them. -/
def inline (host : Host) (invoke : Invoke) (p : Program) (k : Nat) (args : List Tree) :
    Eval Value := do
  let values ← evalList host invoke args
  modify fun m => m.fill k (values.map Value.asScalar)
  return .scalar (← (p.tree.shift k).eval host invoke).asScalar

/-! ### The caller's frame -/

/-- A step that goes the same way whatever the slots hold leaves them as they are. -/
theorem keeps_locals {α : Type} {x : Eval α}
    (blind : ∀ locals, Agree (fun m m' => m' = m.framing locals) x x) (locals : Array Value) :
    Keeps (fun m => m.locals = locals) x := by
  rintro m rfl
  exact ((blind m.locals).fixed (s := m) rfl).mono (fun _ _ => congrArg Machine.locals)
    fun _ _ => congrArg Machine.locals

theorem keeps_size {α : Type} {x : Eval α}
    (blind : ∀ locals, Agree (fun m m' => m' = m.framing locals) x x) (size : Nat) :
    Keeps (fun m => m.locals.size = size) x := by
  rintro m rfl
  exact (keeps_locals blind m.locals m rfl).mono (fun _ _ => congrArg Array.size)
    fun _ _ => congrArg Array.size

theorem eval_size (host : Host) (depth : Nat) (t : Tree) (size : Nat) :
    Keeps (fun m => m.locals.size = size) (t.eval host (host.invoke depth)) := by
  have acts : (Acts.machine host).InStep (Acts.machine host)
      (fun {α} (x _ : Eval α) => Keeps (fun m => m.locals.size = size) x)
      (Place.Within fun _ => True) fun _ => True := by
    rw [← Machine.framed_eq]
    apply Acts.framed_inStep host
    · exact fun i _ m held => held
    · exact fun i f _ m held => ends_modify (by simpa using held)
    · exact fun x same => keeps_size same.frame size
  have kernel := acts.everywhere.kernel (keeps_lockstep _).toStepwise enter enter
  rw [Acts.Machine.kernel_machine] at kernel
  rw [← Machine.walk_kernel]
  exact kernel.walk_self (keeps_lockstep _) host
    (fun name p args => keeps_size (host.invoke_blind depth name p args) size) t

/-- As many values as there are arguments, in a frame of the size it had. -/
theorem evalList_ends (host : Host) (depth : Nat) (ts : List Tree) (m : Machine) :
    Ends (evalList host (host.invoke depth) ts) m
      (fun vs m' => vs.length = ts.length ∧ m'.locals.size = m.locals.size) fun _ _ => True := by
  induction ts generalizing m with
  | nil => exact ⟨rfl, rfl⟩
  | cons t ts ih =>
      refine ends_bind ((host.eval_size depth t _ m rfl).mono ?_ fun _ _ _ => trivial)
      intro v m' size_eq
      refine ends_bind ((ih m').mono ?_ fun _ _ => id)
      rintro vs m'' ⟨count, size_eq'⟩
      exact ends_pure ⟨by simp [count], size_eq'.trans size_eq⟩

/-! ### The body -/

/-- With one call more to go a body goes the same way, unless it is refused a call before. -/
theorem deeper_curtails (host : Host) (depth : Nat) (t : Tree) :
    Curtails Eq (fun e (_ _ : Machine) => ∃ f, e = .fault (.recursionLimit f host.limit))
      (t.eval host (host.invoke depth)) (t.eval host (host.invoke (depth + 1))) := by
  rw [← Machine.walk_kernel, ← Machine.walk_kernel, ← Machine.invoke_kernel,
    ← Machine.invoke_kernel]
  have same : (Machine.kernel host).InStep (Machine.kernel host) (fun {α} (x y : Eval α) =>
      Curtails Eq (fun e _ _ => ∃ f, e = .fault (.recursionLimit f host.limit)) x y)
      (fun _ => True) fun _ _ => True := .self curtails_self _
  refine same.walk_all (curtails_lockstep _ _) host (fun name p args => ?_) t
  apply same.calls (curtails_lockstep _ _)
  · exact .inl rfl
  · exact fun _ => rfl
  · intro q args x y same
    apply same.enter <;> simp +contextual
  · exact Nat.le_add_right depth 1
  · intro name y _
    refine .stopped (e := .fault (.recursionLimit name host.limit)) trivial
      (fun _ _ _ => ⟨name, rfl⟩) ?_
    exact (curtails_self y).stays

end Host

theorem Program.BuiltFor.arity_le {offers : Grant → Prop} {arity : Nat} {p : Program}
    (built : p.BuiltFor offers arity) : arity ≤ p.frameSize := by
  obtain ⟨layout, size, params, -⟩ := built
  refine Nat.le_of_not_lt fun fewer => ?_
  have inside := inside_layout (params p.frameSize fewer)
  exact Nat.lt_irrefl _ (size ▸ inside)

/-- The arguments of a call fit into the frame of the body, and whatever the body touches is in
place. -/
theorem World.Sound.body_in_place {w : World} (sound : w.Sound) {check : Option Check}
    {limit rounds n : Nat} {p : Program}
    (found : (w.host check limit rounds).body? n = some p) {f : Composed}
    (defined : w.functions[n]? = some f) (depth : Nat) {args : List Float}
    (arity : args.length = f.arity) (m : Machine) (frame : Frame) :
    args.length ≤ p.frameSize ∧
    Ends (p.tree.walk (Tape.kernel (w.host check limit rounds)) (w.host check limit rounds)
        ((Tape.kernel (w.host check limit rounds)).invoke (w.host check limit rounds) depth))
      (Tape.into p args ⟨m, frame, []⟩) (fun _ t => ¬ t.Lost Moment.InPlace)
      fun _ t => ¬ t.Lost Moment.InPlace := by
  obtain ⟨plain, settles, honours, -⟩ := sound.plain check limit rounds
  obtain ⟨absent, -⟩ | ⟨p', q, found', body, folding, tree_eq, size_eq⟩ := settles.body n
  · rw [found] at absent
    cases absent
  obtain rfl : p = p' := Option.some.inj (found.symm.trans found')
  have built := honours f.name n args.length q ⟨f, defined, arity.symm⟩ body
  refine ⟨size_eq ▸ built.arity_le, ?_⟩
  obtain ⟨layout, size, params, -, tree⟩ := built
  have good : Good w.Grants layout _ (Tape.into q args ⟨m, frame, []⟩) :=
    into_good Kept.nil size params
  have kept := tree.walks (invoke_safe honours depth) _ (List.Subset.refl _) _ good
  -- What is logged of the body is logged of it as it was read, and there it is in place.
  have mirrors := Tape.kernel_shadows settles
  have same := mirrors.walk_alike settles
    (fun name p q args settled => mirrors.invoke_alike settles depth name args settled)
    q.tree folding
  rw [← tree_eq] at same
  have start :
      Tape.Shadows (Tape.into p args ⟨m, frame, []⟩) (Tape.into q args ⟨m, frame, []⟩) := by
    refine ⟨?_, ?_, fun m member => ?_⟩
    · simp only [Tape.into, Host.frame, size_eq]
    · simp only [Tape.into, size_eq]
    · simp [Tape.into] at member
  have placed := ends_lastState (I := fun t => ∀ m ∈ t.log, m.InPlace).mp
    (kept.mono (fun _ _ after => after.1.good.kept.placed) fun _ _ after =>
      after.good.kept.placed)
  rw [ends_lastState]
  rintro ⟨m, logged, misplaced⟩
  obtain ⟨folding, m', inside, rfl⟩ := (same _ _ start).state.log m logged
  exact misplaced ((placed m' inside).settle folding)

open Machine in
/-- A body with a frame of its own and one call less to go is refused a call, or ends as it does
in slots further up. -/
theorem World.Sound.body_inlined {w : World} (sound : w.Sound) {check : Option Check}
    {limit rounds n : Nat} {p : Program}
    (found : (w.host check limit rounds).body? n = some p) {f : Composed}
    (defined : w.functions[n]? = some f) (depth : Nat) {args : List Float}
    (arity : args.length = f.arity) {k : Nat} (m : Machine)
    (room : k + p.frameSize ≤ m.locals.size) :
    let host := w.host check limit rounds
    let own := p.tree.eval host (host.invoke depth) { m with locals := Host.frame p args }
    (∃ g m', own = .error (.fault (.recursionLimit g limit)) m') ∨
      SameEnd (Laid k p.frameSize m.locals fun _ => False) own
        ((p.tree.shift k).eval host (host.invoke (depth + 1)) (m.fill k args)) := by
  intro host own
  obtain ⟨fits, placed⟩ := sound.body_in_place found defined depth arity m ⟨0, []⟩
  have lies : Tape.Lies k p.frameSize m.locals (Tape.into p args ⟨m, ⟨0, []⟩, []⟩)
      (m.fill k args) := laid_fill m fits room
  have tracked := ((Tape.body_tracks host depth p.tree).alike _ _ lies).resolve_right
    fun lost => ends_lastState.mp placed (ends_lastState.mp lost)
  have erased := Tape.walk_erases host depth p.tree (Tape.into p args ⟨m, ⟨0, []⟩, []⟩) _ rfl
  have shifted : SameEnd (Laid k p.frameSize m.locals fun _ => False) own
      ((p.tree.shift k).eval host (host.invoke depth) (m.fill k args)) := by
    refine (erased.symm.trans tracked).mono ?_
    rintro _ _ ⟨t, rfl, laid⟩
    exact laid
  rcases (host.deeper_curtails depth (p.tree.shift k)).ends (s := m.fill k args) rfl with
    same | ⟨e, m', stopped, ⟨g, rfl⟩⟩
  · exact .inr (same.eq ▸ shifted)
  · left
    rw [stopped] at shifted
    obtain ⟨m'', stopped'⟩ := shifted.error
    exact ⟨g, m'', stopped'⟩

open Machine in
/-- So does the call of a body without returns, which hands on nothing but a number. -/
theorem World.Sound.invoke_inlined {w : World} (sound : w.Sound) {check : Option Check}
    {limit rounds n : Nat} {p : Program}
    (found : (w.host check limit rounds).body? n = some p) {f : Composed}
    (defined : w.functions[n]? = some f)
    (returnless : ∀ items, Tree.returnList items ∉ p.tree.nodes) (depth : Nat) (name : String)
    {args : List Float} (arity : args.length = f.arity) {k : Nat} (m : Machine)
    (room : k + p.frameSize ≤ m.locals.size) :
    let host := w.host check limit rounds
    (∃ g m', host.invoke depth name p args m = .error (.fault (.recursionLimit g limit)) m') ∨
      SameEnd (SameBut k p.frameSize) (host.invoke depth name p args m)
        ((do return (← (p.tree.shift k).eval host (host.invoke depth)).asScalar : Eval Float)
          (m.fill k args)) := by
  intro host
  cases depth with
  | zero => exact .inl ⟨name, m, rfl⟩
  | succ depth =>
      have fatal : Ends (p.tree.eval host (host.invoke depth))
          { m with locals := Host.frame p args } (fun _ _ => True) fun e _ => e.Fatal :=
        Host.body_fatal (fun _ _ found => sound.bodies_steered found)
          (sound.bodies_steered found) returnless depth _
      have left : ∀ {s s' : Machine}, Laid k p.frameSize m.locals (fun _ => False) s s' →
          SameBut k p.frameSize { s with locals := m.locals } s' := fun laid =>
        ⟨laid.store, laid.reports, laid.total, laid.around⟩
      have called : host.invoke (depth + 1) name p args =
          Host.enter p args (p.tree.eval host (host.invoke depth)) := rfl
      simp only [called, Host.enter, Flow.enter, bind, EStateM.bind]
      unfold Ends at fatal
      rcases sound.body_inlined found defined depth arity m room with ⟨g, m', refused⟩ | same
      · rw [refused]
        exact .inl ⟨g, _, rfl⟩
      · right
        cases own : p.tree.eval host (host.invoke depth) { m with locals := Host.frame p args }
          <;> cases inlined : (p.tree.shift k).eval host (host.invoke (depth + 1)) (m.fill k args)
          <;> rw [own, inlined] at same
        case ok.ok v s v' s' =>
          obtain ⟨rfl, laid⟩ := same
          exact ⟨rfl, left laid⟩
        case error.error e s e' s' =>
          obtain ⟨rfl, laid⟩ := same
          rw [own] at fatal
          cases e with
          | fault g => exact ⟨rfl, left laid⟩
          | tired => exact ⟨rfl, left laid⟩
          | leave payload => exact fatal.elim
          | next => exact fatal.elim
          | give values => exact fatal.elim
        all_goals exact same.elim

open Machine in
/-- Calling is inlining. Where the function is still to be had and no call is refused for its
depth, a call of a function without returns ends as its body does in the free slots of the
caller, with one value or one fault, and both leave the same storage, the same accesses and the
same slots around these. -/
theorem call_inlines {w : World} (reached : w.Reached) {n : Nat} {f : Composed}
    (defined : w.functions[n]? = some f)
    (returnless : ∀ items, Tree.returnList items ∉ f.program.tree.nodes) (check : Option Check)
    (limit rounds depth : Nat) (name : String) {args : List Tree} (arity : args.length = f.arity)
    {k : Nat} {m : Machine} (room : k + f.program.frameSize ≤ m.locals.size) :
    let host := w.host check limit rounds
    let called := (Tree.call (.composed name n) args).eval host (host.invoke depth) m
    (host.body? n = none ∧ called = .error (.fault (.unavailable name)) m) ∨
      (∃ g m', called = .error (.fault (.recursionLimit g limit)) m') ∨
      SameEnd (SameBut k f.program.frameSize) called
        (host.inline (host.invoke depth) f.program k args m) := by
  intro host called
  have sound := reached.sound
  cases found : host.body? n with
  | none =>
      refine .inl ⟨rfl, ?_⟩
      simp only [called, eval, Eval.call, found]
      rfl
  | some p =>
      right
      obtain ⟨g, inside, rfl⟩ := World.body_function found
      obtain rfl : f = g := Option.some.inj (defined.symm.trans inside)
      have counted := host.evalList_ends depth args m
      simp only [called, eval, Eval.call, Host.inline, found]
      unfold Ends at counted
      cases given : evalList host (host.invoke depth) args m with
      | error e m₁ =>
          simp only [bind, EStateM.bind, given]
          exact .inr ⟨rfl, .refl k _ m₁⟩
      | ok vs m₁ =>
          rw [given] at counted
          obtain ⟨count, size⟩ := counted
          have room' : k + f.program.frameSize ≤ m₁.locals.size := size ▸ room
          have arity' : (vs.map Value.asScalar).length = f.arity := by
            rw [List.length_map, count, arity]
          rcases sound.invoke_inlined found defined returnless depth name arity' m₁ room' with
            ⟨g, m', refused⟩ | same
          · exact .inl ⟨g, m', by simp only [bind, EStateM.bind, given, host, refused]⟩
          · right
            have ends := sameEnd_bind same fun x =>
              agree_pure (R := SameBut k f.program.frameSize) (Value.scalar x)
            simp only [bind_assoc, pure_bind] at ends
            simp only [bind, EStateM.bind, given] at ends ⊢
            exact ends

open Machine in
/-- A function with a local of its own that calls another one, in slots that are not empty. -/
theorem call_inlines_of_leftovers :
    let w := World.empty.run
      [.define "t" [⟨"square", ["x"], "var y := x; y * y"⟩,
        ⟨"norm", ["x", "y"], "var s := square(x); s += square(y); s"⟩]]
    let host := w.host none 100 1000
    let args : List Tree := [.number 3, .number 4]
    let m : Machine := ⟨Store.empty, Array.replicate 5 (.string "left over"), #[]⟩
    let called := (Tree.call (.composed "norm" 1) args).eval host (host.invoke 100) m
    ∃ f, w.functions[1]? = some f ∧ f.arity = 2 ∧ f.program.frameSize = 3 ∧
      (∀ items, Tree.returnList items ∉ f.program.tree.nodes) ∧
      ((host.body? 1 = none ∧ called = .error (.fault (.unavailable "norm")) m) ∨
        (∃ g m', called = .error (.fault (.recursionLimit g 100)) m') ∨
        SameEnd (SameBut 2 f.program.frameSize) called
          (host.inline (host.invoke 100) f.program 2 args m)) := by
  intro w host args m called
  have compiled : (w.functions[1]?.map fun f => (f.arity, f.program.frameSize,
      f.program.tree.nodes.all fun
        | .returnList _ => false
        | _ => true)) = some (2, 3, true) := by
    decide +kernel
  obtain ⟨f, defined, facts⟩ := Option.map_eq_some_iff.mp compiled
  simp only [Prod.mk.injEq] at facts
  obtain ⟨arity, size, all⟩ := facts
  have returnless : ∀ items, Tree.returnList items ∉ f.program.tree.nodes := fun items inside =>
    Bool.noConfusion (List.all_eq_true.mp all _ inside)
  have count : args.length = f.arity := arity.symm
  have room : 2 + f.program.frameSize ≤ m.locals.size := by simp [m, size]
  exact ⟨f, defined, arity, size, returnless,
    call_inlines ⟨_, rfl⟩ defined returnless none 100 1000 100 "norm" count room⟩

end MathScript
