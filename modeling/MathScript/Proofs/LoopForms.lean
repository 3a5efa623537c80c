import MathScript.Proofs.Curtail
import MathScript.Proofs.Signals

/-!
Loops in one another's form. A break or a continue comes out of a tree only if one stands in it
outside of the bodies of its loops. So a body that breaks no loop around it is run once by a
`repeat` that stops behind it, and a `while` around that and the step does what the `for` does. A
`for` with neither a first part nor a step is a `while`.
-/

namespace MathScript

open Tree Flow

/-! ### What comes out of a tree -/

namespace Tree

/-- The nodes of a tree that are in the body of none of its loops. -/
inductive Outer : Tree → Tree → Prop
  | self (t : Tree) : Outer t t
  | head {t child node : Tree} (member : child ∈ t.heads) (within : Outer child node) : Outer t node

theorem Outer.cases {t node : Tree} (outer : t.Outer node) :
    node = t ∨ ∃ child ∈ t.heads, child.Outer node := by
  cases outer with
  | self => exact .inl rfl
  | head member within => exact .inr ⟨_, member, within⟩

/-- What may come out of a tree: breaks and continues for the loops around it, and whatever is not
for a loop. -/
def Releases (t : Tree) : Signal → Prop
  | .leave _ => ∃ payload, t.Outer (.breakLoop payload)
  | .next => t.Outer .continueLoop
  | .give _ | .fault _ | .tired => True

theorem Releases.head {t child : Tree} {e : Signal} (releases : child.Releases e)
    (member : child ∈ t.heads) : t.Releases e := by
  cases e with
  | leave payload =>
      obtain ⟨broken, within⟩ := releases
      exact ⟨broken, .head member within⟩
  | next => exact Outer.head member releases
  | give | fault | tired => trivial

theorem Throws.releases {t : Tree} {e : Signal} (throws : t.Throws e) : t.Releases e := by
  unfold Throws at throws
  split at throws
  · exact ⟨_, .self _⟩
  · exact .self _
  · trivial
  · trivial
  · exact throws.elim

end Tree

/-- A signal that no loop answers. -/
def Signal.Passes : Signal → Prop
  | .leave _ | .next => False
  | .give _ | .fault _ | .tired => True

theorem Signal.Passes.releases {e : Signal} (passes : e.Passes) (t : Tree) : t.Releases e := by
  cases e with
  | leave | next => exact passes.elim
  | give | fault | tired => trivial

/-- Wherever it starts, a step stops with nothing but such signals. -/
def StopsWith (allowed : Signal → Prop) {α : Type} (x : Eval α) : Prop :=
  ∀ m, Ends x m (fun _ _ => True) fun e _ => allowed e

namespace StopsWith

variable {allowed allowed' : Signal → Prop} {α β : Type} {x : Eval α}

theorem mono (stops : StopsWith allowed x) (more : ∀ e, allowed e → allowed' e) :
    StopsWith allowed' x :=
  fun m => (stops m).mono (fun _ _ => id) fun e _ => more e

theorem throw {e : Signal} (among : allowed e) : StopsWith allowed (throw e : Eval α) :=
  fun _ => ends_throw among

theorem pure (a : α) : StopsWith allowed (pure a : Eval α) := fun _ => ends_pure trivial

theorem bind {f : α → Eval β} (first : StopsWith allowed x) (rest : ∀ a, StopsWith allowed (f a)) :
    StopsWith allowed (x >>= f) :=
  fun m => ends_bind ((first m).mono (fun a m' _ => rest a m') fun _ _ => id)

theorem stepwise (allowed : Signal → Prop) :
    Stepwise fun {α} (x : Eval α) (_ : Eval α) => StopsWith allowed x where
  done := pure
  bind first rest := first.bind rest

/-- A round answers what is for its loop. -/
theorem round (passing : ∀ e : Signal, e.Passes → allowed e) (body : Eval Value) (last : Value) :
    StopsWith allowed (Flow.round body last) := by
  intro m
  unfold Ends Flow.round
  cases body m with
  | ok v m' => trivial
  | error e m' =>
      cases e with
      | leave | next => trivial
      | give | fault | tired => exact passing _ trivial

theorem loop (passing : ∀ e : Signal, e.Passes → allowed e) {test : Eval Bool} {step : Eval Unit}
    (tests : StopsWith allowed test) (steps : StopsWith allowed step) (body : Eval Value)
    (rounds : Nat) (last : Value) : StopsWith allowed (Flow.loop test step body rounds last) := by
  induction rounds generalizing last with
  | zero => exact throw (passing _ trivial)
  | succ rounds ih =>
      refine tests.bind fun holds => ?_
      cases holds with
      | false => exact pure last
      | true =>
          refine (round passing body last).bind fun (goes, last) => ?_
          cases goes with
          | false => exact pure last
          | true => exact steps.bind fun _ => ih last

theorem loopUntil (passing : ∀ e : Signal, e.Passes → allowed e) (body : Eval Value)
    {stop : Eval Bool} (stops : StopsWith allowed stop) (rounds : Nat) (last : Value) :
    StopsWith allowed (Flow.loopUntil body stop rounds last) := by
  induction rounds generalizing last with
  | zero => exact throw (passing _ trivial)
  | succ rounds ih =>
      refine (round passing body last).bind fun (goes, last) => ?_
      cases goes with
      | false => exact pure last
      | true =>
          refine stops.bind fun holds => ?_
          cases holds with
          | false => exact ih last
          | true => exact pure last

theorem kernel (host : Host) (passing : ∀ e : Signal, e.Passes → allowed e) :
    (Machine.kernel host).InStep (Machine.kernel host)
      (fun {α} (x : Eval α) (_ : Eval α) => StopsWith allowed x) (fun _ => True)
      fun _ _ => True := by
  rw [← Acts.Machine.kernel_machine, ← Acts.through_id]
  refine (Acts.through_raises host fun x raises => ?_).kernel (stepwise allowed) _ _
  exact fun m => (raises m).mono (fun _ _ => id) fun e _ ⟨f, fault, _⟩ =>
    passing e (fault ▸ trivial)

end StopsWith

section

variable {host : Host} {invoke : Invoke}

theorem stops_option {allowed : Signal → Prop} {t : Option Tree}
    (stops : ∀ u ∈ t.toList, StopsWith allowed (u.eval host invoke)) :
    StopsWith allowed (evalOption host invoke t) := by
  cases t with
  | none => exact .pure _
  | some u => exact stops u (by simp)

theorem stops_test {allowed : Signal → Prop} {t : Option Tree}
    (stops : ∀ u ∈ t.toList, StopsWith allowed (u.eval host invoke)) :
    StopsWith allowed (evalTest host invoke t) := by
  cases t with
  | none => exact .pure _
  | some u => exact (stops u (by simp)).bind fun _ => .pure _

/-- Of breaks and continues, only those come out of a tree that stand in it outside of the bodies of
its loops. -/
theorem releases_eval
    (invokes : ∀ name p args, StopsWith Signal.Passes (invoke name p args)) (t : Tree) :
    StopsWith t.Releases (t.eval host invoke) := by
  induction t using children_induction with
  | step t ih =>
      have passing : ∀ e : Signal, e.Passes → t.Releases e := fun e passes => passes.releases t
      have heads : ∀ u ∈ t.heads, StopsWith t.Releases (u.eval host invoke) := fun u member =>
        (ih u (mem_children.mpr (.inl member))).mono fun e releases => releases.head member
      by_cases flat : t.body? = none
      · have k := StopsWith.kernel host passing
        have fits : t.Fits (fun _ => True) (fun _ _ => True) fun _ => True :=
          ⟨fun _ _ => trivial, fun _ _ => trivial, fun _ _ => trivial⟩
        rw [← Machine.walk_kernel]
        refine Kernel.InStep.walk_step_self (StopsWith.stepwise _) flat (k.inStepAt fits)
          (fun e throws => .throw throws.releases) (k.finished t)
          (fun n _ p _ name args => (invokes name p args).mono passing) fun u member => ?_
        rw [Machine.walk_kernel]
        exact heads u ((mem_children.mp member).resolve_right (by simp [flat]))
      -- What the body of a loop stops with does not get past its round.
      · cases t <;> simp only [Tree.heads, List.mem_append, List.mem_singleton, forall_eq, or_imp,
          forall_and] at heads <;> rw [eval]
        case whileLoop test body =>
            exact .loop passing (heads.bind fun _ => .pure _) (.pure ()) _ _ _
        case forLoop first test step body =>
            obtain ⟨⟨firsts, tests⟩, steps⟩ := heads
            exact ((stops_option firsts).bind fun _ => .pure ()).bind fun _ =>
              .loop passing (stops_test tests) ((stops_option steps).bind fun _ => .pure ()) _ _ _
        case repeatLoop body stop =>
            exact .loopUntil passing _ (heads.bind fun _ => .pure _) _ _
        all_goals exact absurd rfl flat

end

/-! ### A body that is run once in each round -/

section

variable {test : Eval Bool} {step body : Eval Value}

/-- A body that breaks no loop lets its round go on, or stops it for good. -/
theorem round_cases (unbroken : StopsWith (fun e => ∀ payload, e ≠ .leave payload) body)
    (m : Machine) :
    (∃ m', ∀ last, ∃ v, Flow.round body last m = .ok (true, v) m') ∨
      ∃ e m', e.Passes ∧ ∀ last, Flow.round body last m = .error e m' := by
  have stops := unbroken m
  unfold Ends at stops
  unfold Flow.round
  cases ended : body m with
  | ok v m' => exact .inl ⟨m', fun last => ⟨v, rfl⟩⟩
  | error e m' =>
      rw [ended] at stops
      cases e with
      | next => exact .inl ⟨m', fun last => ⟨last, rfl⟩⟩
      | leave payload => exact absurd rfl (stops payload)
      | give | fault | tired =>
          refine .inr ⟨_, m', ?_, fun last => rfl⟩
          trivial

/-- What neither breaks nor continues a loop ends its round as it ends itself. -/
theorem round_passing {x : Eval Value} (passes : StopsWith Signal.Passes x) (last : Value) :
    Flow.round x last = (do return (true, ← x)) := by
  funext m
  have stops := passes m
  unfold Ends at stops
  unfold Flow.round
  cases ended : x m with
  | ok v m' => rw [bind_completed ended]; rfl
  | error e m' =>
      rw [ended] at stops
      rw [bind_stopped ended]
      cases e with
      | leave | next => exact stops.elim
      | give | fault | tired => rfl

/-- A loop that stops behind its first round ends as that round does. -/
theorem loopUntil_once (allowed : Nat) (last : Value)
    (unbroken : StopsWith (fun e => ∀ payload, e ≠ .leave payload) body) :
    loopUntil body (pure true) (allowed + 1) last = (do return (← Flow.round body last).2) := by
  funext m
  rw [loopUntil]
  rcases round_cases unbroken m with ⟨m', goes⟩ | ⟨e, m', -, stops⟩
  · obtain ⟨v, goes⟩ := goes last
    rw [bind_completed goes, bind_completed goes]
    rfl
  · rw [bind_stopped (stops last), bind_stopped (stops last)]

theorem ignore_bind {α : Type} (x : Eval α) (f : α → Eval Value) :
    ignore (x >>= f) = x >>= fun a => ignore (f a) := by
  simp only [ignore, bind_assoc]

/-- A round of a body and the step behind it, and a round of both as one body. -/
theorem loop_again (allowed : Nat)
    (unbroken : StopsWith (fun e => ∀ payload, e ≠ .leave payload) body)
    (passes : StopsWith Signal.Passes step) (rounds : Nat) (last last' : Value) :
    ignore (loop test (ignore step) body rounds last) =
      ignore (loop test (pure ())
        (do let _ ← loopUntil body (pure true) (allowed + 1) .null; step) rounds last') := by
  have inner : (do let _ ← loopUntil body (pure true) (allowed + 1) .null; step) =
      (do let _ ← Flow.round body .null; step) := by
    rw [loopUntil_once allowed .null unbroken]
    simp only [bind_assoc, pure_bind]
  have innerPasses : StopsWith Signal.Passes (do let _ ← Flow.round body .null; step) :=
    (StopsWith.round (fun _ => id) body .null).bind fun _ => passes
  rw [inner]
  induction rounds generalizing last last' with
  | zero => rfl
  | succ rounds ih =>
      rw [Flow.loop, Flow.loop, ignore_bind, ignore_bind]
      refine bind_congr fun holds => ?_
      cases holds with
      | false => rfl
      | true =>
          simp only [if_true, round_passing innerPasses, ignore_bind, bind_assoc, pure_bind]
          funext m
          rcases round_cases unbroken m with ⟨m', goes⟩ | ⟨e, m', -, stops⟩
          · obtain ⟨v, goesOn⟩ := goes last
            obtain ⟨w, goesOn'⟩ := goes .null
            rw [bind_completed goesOn, bind_completed goesOn']
            simp only [if_true, ignore_bind]
            rw [ignore, bind_assoc]
            simp only [pure_bind]
            exact congrFun (bind_congr fun x => ih v x) m'
          · rw [bind_stopped (stops last), bind_stopped (stops .null)]

end

theorem eval_number? {host : Host} {invoke : Invoke} {t : Tree} {x : Float}
    (stands : t.number? = some x) : t.eval host invoke = pure (.scalar x) := by
  unfold number? at stands
  split at stands
  · cases stands
    rw [eval]
  · cases stands
    rw [eval]
    rfl
  · cases stands

theorem invoke_passes (host : Host) (calls : Nat) (name : String) (p : Program)
    (args : List Float) : StopsWith Signal.Passes (host.invoke calls name p args) := by
  intro m
  refine (Host.invoke_fatal calls name p args m).mono (fun _ _ => id) fun e _ fatal => ?_
  cases e with
  | leave | next | give => exact fatal.elim
  | fault | tired => trivial

/-- The three loops in one another's form, on every host and from every machine. Let the body of a
`for` break no loop around it, and its step neither break nor continue one. A `while` that runs this
body in a `repeat` that stops behind its first round, and then the step, completes in the same
machine as the `for` or is stopped there by the same signal, whether or not the body continues. And
a `for` with neither a first part nor a step ends as the `while` does, with the same value. -/
theorem loop_forms_agree (host : Host) (calls : Nat) :
    (∀ c s b yes : Tree, (∃ x, yes.number? = some x ∧ isTrue x = true) →
      (∀ payload, ¬ b.Outer (.breakLoop payload)) →
      (∀ payload, ¬ s.Outer (.breakLoop payload)) → ¬ s.Outer .continueLoop →
      ignore ((forLoop none (some c) (some s) b).eval host (host.invoke calls)) =
        ignore ((whileLoop c (.sequence [repeatLoop b yes, s])).eval host (host.invoke calls))) ∧
    ∀ c b : Tree, (whileLoop c b).eval host (host.invoke calls) =
      (forLoop none (some c) none b).eval host (host.invoke calls) := by
  constructor
  · rintro c s b yes ⟨x, stands, holds⟩ unbroken steady uncontinued
    have released : ∀ t : Tree, StopsWith t.Releases (t.eval host (host.invoke calls)) :=
      releases_eval (invoke_passes host calls)
    have body : StopsWith (fun e => ∀ payload, e ≠ .leave payload)
        (b.eval host (host.invoke calls)) := (released b).mono fun e releases payload left => by
      subst left
      obtain ⟨broken, within⟩ := releases
      exact unbroken broken within
    have step : StopsWith Signal.Passes (s.eval host (host.invoke calls)) :=
      (released s).mono fun e releases => by
        cases e with
        | leave payload =>
            obtain ⟨broken, within⟩ := releases
            exact steady broken within
        | next => exact uncontinued releases
        | give | fault | tired => trivial
    have stop : truth (yes.eval host (host.invoke calls)) = pure true := by
      rw [eval_number? stands, ← holds]
      rfl
    simp only [eval, evalOption, evalTest, evalSequence, stop, bind_pure]
    cases rounds : host.rounds with
    | zero => rfl
    | succ allowed => exact loop_again allowed body step _ _ _
  · intro c b
    simp only [eval, evalOption, evalTest]
    rfl

/-- Counting to three, with a body that always continues. -/
theorem loop_forms_agree_of_continue :
    let host : Host := ⟨#[], fun _ => none, none, 10, 100⟩
    let n : Binding := ⟨"n", .slot 0 .scalar, true⟩
    let below : Tree := .apply (.scalars .lt) [.load n, .number 3]
    let step : Tree := .assign (.whole n) .add (.number 1)
    let body : Tree := .branch (.load n) .continueLoop none
    ignore ((forLoop none (some below) (some step) body).eval host (host.invoke 10)) =
      ignore ((whileLoop below (.sequence [repeatLoop body (.number 1), step])).eval host
        (host.invoke 10)) := by
  intro host n below step body
  have leaf : ∀ {t node : Tree}, t.heads = [] → t.Outer node → node = t := by
    intro t node none outer
    rcases outer.cases with same | ⟨child, member, -⟩
    · exact same
    · rw [none] at member
      cases member
  have unbroken : ∀ payload, ¬ body.Outer (.breakLoop payload) := by
    intro payload outer
    rcases outer.cases with same | ⟨child, member, within⟩
    · exact absurd same (by simp [body])
    obtain rfl | rfl : child = .load n ∨ child = .continueLoop := by
      simpa [body, heads, children] using member
    · cases leaf rfl within
    · cases leaf rfl within
  have steady : ∀ node, node.exits = true → ¬ step.Outer node := by
    intro node exits outer
    rcases outer.cases with rfl | ⟨child, member, within⟩
    · cases exits
    obtain rfl : child = .number 1 := by simpa [step, heads, children, Target.indices] using member
    obtain rfl := leaf rfl within
    cases exits
  exact (loop_forms_agree host 10).1 below step body (.number 1) ⟨1, rfl, by decide +kernel⟩
    unbroken (fun payload => steady _ rfl) (steady _ rfl)

end MathScript
