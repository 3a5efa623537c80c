import MathScript.Proofs.Course

/-!
Following the course. A step of the machine follows the course that is noted beside it if both end
alike and the notes are as told: a break or a continue is for the innermost loop it is inside of,
and a list is that of a return of the tree at hand. Steered trees keep this, node by node, so no
loop is ever offered what is for another one, and no body ends with a break or a continue.
-/

namespace MathScript

open Tree Flow

namespace Course

/-- What has been returned since, bodies called since have returned. -/
structure Since (c c' : Course) : Prop where
  running : c'.running = c.running
  returns : ∃ inner, c'.returns = inner ++ c.returns ∧ ∀ r ∈ inner, c.running < r.running

theorem Since.refl (c : Course) : c.Since c := ⟨rfl, [], rfl, by simp⟩

theorem Since.trans {c c' c'' : Course} (first : c.Since c') (rest : c'.Since c'') :
    c.Since c'' := by
  obtain ⟨running, inner, returns, above⟩ := first
  obtain ⟨running', inner', returns', above'⟩ := rest
  refine ⟨running'.trans running, inner' ++ inner, by rw [returns', returns, List.append_assoc],
    fun r member => ?_⟩
  rcases List.mem_append.mp member with later | earlier
  · exact running ▸ above' r later
  · exact above r earlier

theorem since_exit (level : Nat) (c : Course) : c.Since (c.exit level) := ⟨rfl, [], rfl, by simp⟩

/-- What a node of `root` inside of `level` loops may stop with: a break or a continue for the
innermost of these loops, or the list noted last, that of a return of `root` itself. -/
def Stops (level : Nat) (root : Tree) (e : Signal) (c c' : Course) : Prop :=
  match e with
  | .leave _ | .next => 0 < level ∧ c'.level = level ∧ c.Since c'
  | .give vs => ∃ c₁ items, c.Since c₁ ∧ c' = c₁.give items ∧ items.map Prod.snd = vs ∧
      Tree.returnList (items.map Prod.fst) ∈ root.nodes
  | .fault _ | .tired => c.Since c'

theorem Stops.after {level : Nat} {root : Tree} {e : Signal} {c c' c'' : Course}
    (stops : Stops level root e c' c'') (since : c.Since c') : Stops level root e c c'' := by
  cases e with
  | leave payload =>
      obtain ⟨inside, at_, later⟩ := stops
      exact ⟨inside, at_, since.trans later⟩
  | next =>
      obtain ⟨inside, at_, later⟩ := stops
      exact ⟨inside, at_, since.trans later⟩
  | give vs =>
      obtain ⟨c₁, items, later, rest⟩ := stops
      exact ⟨c₁, items, since.trans later, rest⟩
  | fault f => exact since.trans stops
  | tired => exact since.trans stops

end Course

/-- The machine ends as it does beside the course, and the course is as told of a node of `root`
inside of `level` loops. -/
structure Follows (level : Nat) (root : Tree) {α : Type} (x : Eval α)
    (y : Flow (Beside Course) α) : Prop where
  agree : Agree (fun m s => s.machine = m) x y
  course : ∀ s, Ends y s (fun _ s' => s.notes.Since s'.notes)
    fun e s' => Course.Stops level root e s.notes s'.notes

section

variable {level : Nat} {root : Tree} {α β : Type}

theorem follows_stepwise (level : Nat) (root : Tree) :
    Stepwise (fun {α} (x : Eval α) y => Follows level root x y) where
  done a := ⟨agree_pure a, fun s => ends_pure (.refl s.notes)⟩
  bind first rest := by
    refine ⟨agree_bind first.agree fun a => (rest a).agree, fun s => ?_⟩
    refine ends_bind ((first.course s).mono (fun a s' since => ?_) fun _ _ => id)
    exact ((rest a).course s').mono (fun _ _ later => since.trans later)
      fun _ _ stops => stops.after since

theorem follows_throw {e : Signal} (fatal : e.Fatal) :
    Follows level root (throw e : Eval α) (throw e) := by
  refine ⟨agree_throw e, fun s => ends_throw ?_⟩
  cases e with
  | fault f => exact .refl s.notes
  | tired => exact .refl s.notes
  | leave payload => exact fatal.elim
  | next => exact fatal.elim
  | give vs => exact fatal.elim

theorem follows_note {e : Signal} (f : Course → Course)
    (stops : ∀ c, Course.Stops level root e c (f c)) :
    Follows level root (throw e : Eval α) (do
      Beside.note fun _ c => f c
      throw e) where
  agree := by
    rintro _ s rfl
    exact ⟨rfl, rfl⟩
  course s := ends_bind (ends_modify (ends_throw (stops s.notes)))

theorem follows_lift {host : Host} {x : Eval α} (raises : host.Raises x) :
    Follows level root x (Beside.lift x) where
  agree := Beside.agree_lift x
  course s := by
    have raised := raises s.machine
    unfold Ends at *
    unfold Beside.lift
    cases end_eq : x s.machine with
    | ok a m => exact .refl s.notes
    | error e m =>
        rw [end_eq] at raised
        obtain ⟨f, rfl, -⟩ := raised
        exact Course.Since.refl s.notes

theorem steering_inStep (host : Host) (level : Nat) (root : Tree) :
    (Machine.kernel host).InStep host.steering (fun {α} (x : Eval α) y => Follows level root x y)
      (fun _ => True) fun _ _ => True := by
  rw [← Acts.Machine.kernel_machine, ← Acts.through_id]
  exact (Acts.through_raises host fun _ raises => follows_lift raises).kernel
    (follows_stepwise level root) _ _

/-! ### Loops -/

/-- What a body stops with inside of one loop more is for that loop. -/
theorem follows_round {x : Eval Value} {y : Flow (Beside Course) Value}
    (body : Follows (level + 1) root x y) (last : Value) :
    Follows level root (Flow.round x last) (roundAt (level + 1) y last) := by
  have answered : ∀ s, roundAt (level + 1) y last s = Flow.round y last s := by
    intro s
    have ends := body.course s
    unfold Ends at ends
    unfold roundAt
    split
    · rfl
    · next other =>
        unfold Flow.round lastState at *
        cases end_eq : y s with
        | ok v s' => rfl
        | error e s' =>
            rw [end_eq] at ends other
            cases e with
            | leave payload => exact absurd ends.2.1 other
            | next => exact absurd ends.2.1 other
            | give vs => rfl
            | fault f => rfl
            | tired => rfl
  constructor
  · intro m s related
    rw [answered]
    exact sameEnd_round (body.agree m s related) last
  · intro s
    have ends := body.course s
    unfold Ends at *
    rw [answered]
    unfold Flow.round
    cases end_eq : y s with
    | ok v s' =>
        rw [end_eq] at ends
        exact ends
    | error e s' =>
        rw [end_eq] at ends
        cases e with
        | leave payload => exact ends.2.2
        | next => exact ends.2.2
        | give vs => exact ends
        | fault f => exact ends
        | tired => exact ends

theorem follows_loop {test : Eval Bool} {test' : Flow (Beside Course) Bool} {step : Eval Unit}
    {step' : Flow (Beside Course) Unit} {body : Eval Value} {body' : Flow (Beside Course) Value}
    (tests : Follows level root test test') (steps : Follows level root step step')
    (bodies : Follows (level + 1) root body body') (rounds : Nat) (last : Value) :
    Follows level root (loop test step body rounds last)
      (loopAt (level + 1) test' step' body' rounds last) := by
  have l := follows_stepwise level root
  induction rounds generalizing last with
  | zero => exact follows_throw trivial
  | succ rounds ih =>
      apply l.bind tests
      intro holds
      cases holds with
      | false => exact l.done last
      | true =>
          refine l.bind (follows_round bodies last) fun (goes, last) => ?_
          cases goes with
          | false => exact l.done last
          | true => exact l.bind steps fun _ => ih last

theorem follows_loopUntil {body : Eval Value} {body' : Flow (Beside Course) Value}
    {stop : Eval Bool} {stop' : Flow (Beside Course) Bool}
    (bodies : Follows (level + 1) root body body') (stops : Follows level root stop stop')
    (rounds : Nat) (last : Value) :
    Follows level root (loopUntil body stop rounds last)
      (loopUntilAt (level + 1) body' stop' rounds last) := by
  have l := follows_stepwise level root
  induction rounds generalizing last with
  | zero => exact follows_throw trivial
  | succ rounds ih =>
      refine l.bind (follows_round bodies last) fun (goes, last) => ?_
      cases goes with
      | false => exact l.done last
      | true =>
          apply l.bind stops
          intro holds
          cases holds with
          | false => exact ih last
          | true => exact l.done last

/-! ### Calls -/

/-- A body is inside of no loop, so no break or continue comes out of it; the list it returns is
noted for it and not for its caller. -/
theorem follows_enter (program : Program) (args : List Float) {x : Eval Value}
    {y : Flow (Beside Course) Value} (body : Follows 0 program.tree x y) :
    Follows level root (Host.enter program args x)
      (Beside.enter Course.into Course.back program args y) := by
  refine ⟨Beside.agree_enter _ _ program args body.agree, fun s => ?_⟩
  have left : ∀ {c c' : Course}, c.into.Since c' → c.Since (c.back c') := by
    rintro c c' ⟨-, inner, returns, above⟩
    exact ⟨rfl, inner, returns, fun r member => Nat.lt_of_succ_lt (above r member)⟩
  have ends := body.course
    ⟨{ s.machine with locals := Host.frame program args }, s.notes.into⟩
  unfold Ends at *
  unfold Beside.enter enter
  dsimp only
  cases end_eq : y ⟨{ s.machine with locals := Host.frame program args }, s.notes.into⟩ with
  | ok v s' =>
      rw [end_eq] at ends
      exact left ends
  | error e s' =>
      rw [end_eq] at ends
      cases e with
      | leave payload => exact absurd ends.1 (Nat.lt_irrefl 0)
      | next => exact absurd ends.1 (Nat.lt_irrefl 0)
      | give vs =>
          obtain ⟨c₁, items, ⟨running, inner, returns, above⟩, given, -⟩ := ends
          refine ⟨rfl, ⟨c₁.running, items⟩ :: inner, ?_, ?_⟩
          · simp only [Course.back, given, Course.give, returns]
            rfl
          · have own : s.notes.running < c₁.running := by
              rw [running]
              exact Nat.lt_succ_self _
            exact List.forall_mem_cons.mpr ⟨own, fun r member => Nat.lt_of_succ_lt (above r member)⟩
      | fault f => exact left ends
      | tired => exact left ends

/-! ### Nodes -/

section

variable {host : Host} {invoke : Invoke} {invoke' : Kernel.Invoking (Beside Course)}

theorem follows_option {t : Option Tree}
    (same : ∀ u ∈ t.toList, Follows level root (u.eval host invoke) (u.steer host invoke' level)) :
    Follows level root (evalOption host invoke t) (steerOption host invoke' level t) := by
  cases t with
  | none => exact (follows_stepwise level root).done _
  | some u => exact same u (by simp)

theorem follows_index {t : Option Tree}
    (same : ∀ u ∈ t.toList, Follows level root (u.eval host invoke) (u.steer host invoke' level)) :
    Follows level root (evalIndex host invoke t) (steerIndex host invoke' level t) := by
  have l := follows_stepwise level root
  cases t with
  | none => exact l.done none
  | some u => exact l.bind (same u (by simp)) fun v => l.done _

theorem follows_test {t : Option Tree}
    (same : ∀ u ∈ t.toList, Follows level root (u.eval host invoke) (u.steer host invoke' level)) :
    Follows level root (evalTest host invoke t) (steerTest host invoke' level t) := by
  have l := follows_stepwise level root
  cases t with
  | none => exact l.done true
  | some u => exact l.truth (same u (by simp))

/-- What is done with the values of a list is done knowing the trees they came from. -/
theorem follows_items {ts : List Tree} {f : List Value → Eval α}
    {g : List (Tree × Value) → Flow (Beside Course) α}
    (same : ∀ u ∈ ts, Follows level root (u.eval host invoke) (u.steer host invoke' level))
    (rest : ∀ items : List (Tree × Value), items.map Prod.fst = ts →
      Follows level root (f (items.map Prod.snd)) (g items)) :
    Follows level root (evalList host invoke ts >>= f)
      (steerItems host invoke' level ts >>= g) := by
  have l := follows_stepwise level root
  induction ts generalizing f g with
  | nil => exact rest [] rfl
  | cons t ts ih =>
      simp only [evalList, steerItems, bind_assoc, pure_bind]
      refine l.bind (same t (by simp)) fun v =>
        ih (fun u inside => same u (List.mem_cons_of_mem t inside)) fun items items_eq => ?_
      exact rest ((t, v) :: items) (by simp [items_eq])

theorem follows_list {ts : List Tree}
    (same : ∀ u ∈ ts, Follows level root (u.eval host invoke) (u.steer host invoke' level)) :
    Follows level root (evalList host invoke ts)
      (do return (← steerItems host invoke' level ts).map Prod.snd) := by
  have values := follows_items same fun items _ =>
    (follows_stepwise level root).done (items.map Prod.snd)
  simpa using values

theorem follows_first (absent : Value) {ts : List Tree}
    (same : ∀ u ∈ ts, Follows level root (u.eval host invoke) (u.steer host invoke' level)) :
    Follows level root (evalFirst host invoke absent ts)
      (steerFirst host invoke' level absent ts) := by
  cases ts with
  | nil => exact (follows_stepwise level root).done absent
  | cons t ts => exact same t (by simp)

theorem follows_sequence (last : Value) {ts : List Tree}
    (same : ∀ u ∈ ts, Follows level root (u.eval host invoke) (u.steer host invoke' level)) :
    Follows level root (evalSequence host invoke last ts)
      (steerSequence host invoke' level last ts) := by
  have l := follows_stepwise level root
  induction ts generalizing last with
  | nil => exact l.done last
  | cons t ts ih =>
      exact l.bind (same t (by simp)) fun v =>
        ih v fun u inside => same u (List.mem_cons_of_mem t inside)

theorem follows_cases {cases : List (Tree × Tree)}
    (same : ∀ u ∈ cases.flatMap fun (test, body) => [test, body],
      Follows level root (u.eval host invoke) (u.steer host invoke' level)) :
    Follows level root (evalCases host invoke cases) (steerCases host invoke' level cases) := by
  have l := follows_stepwise level root
  induction cases with
  | nil => exact l.done none
  | cons c cases ih =>
      obtain ⟨test, body⟩ := c
      simp only [List.flatMap_cons, List.mem_append] at same
      apply l.bind (l.truth (same test (by simp)))
      intro holds
      cases holds with
      | true => exact l.bind (same body (by simp)) fun v => l.done (some v)
      | false => exact ih fun u inside => same u (.inr inside)

theorem follows_target {target : Target Tree}
    (same : ∀ u ∈ target.indices,
      Follows level root (u.eval host invoke) (u.steer host invoke' level)) :
    Follows level root (evalTarget host invoke target) (steerTarget host invoke' level target) := by
  have l := follows_stepwise level root
  cases target with
  | whole b => exact l.done _
  | element b index => exact l.bind (same index (by simp [Target.indices])) fun v => l.done _
  | range b first last =>
      simp only [Target.indices, List.mem_append] at same
      exact l.bind (follows_index fun u inside => same u (.inl inside)) fun x =>
        l.bind (follows_index fun u inside => same u (.inr inside)) fun y => l.done _

theorem follows_call {callee : Callee} {args : List Tree} {values : Eval (List Value)}
    {values' : Flow (Beside Course) (List Value)}
    (invokes : ∀ n p, host.body? n = some p → ∀ name args,
      Follows level root (invoke name p args) (invoke' name p args))
    (same : Follows level root values values') :
    Follows level root (Eval.call host invoke callee values)
      (host.steering.call host invoke' callee args values') := by
  have l := follows_stepwise level root
  have k := steering_inStep host level root
  cases callee with
  | scalar name native => exact l.bind same fun vs => k.numeric native vs
  | vararg name native => exact l.bind same fun vs => k.numeric native vs
  | generic name native overload writeback =>
      exact l.bind same fun vs => k.generic native overload writeback args vs fun _ _ => trivial
  | composed name definition =>
      simp only [Eval.call, Kernel.call]
      cases found : host.body? definition with
      | none => exact follows_throw trivial
      | some p =>
          exact l.bind same fun vs => l.bind (invokes definition p found name _) fun x => l.done _

theorem follows_swap {left right : Eval (Target Float)}
    {left' right' : Flow (Beside Course) (Target Float)} (lefts : Follows level root left left')
    (rights : Follows level root right right') :
    Follows level root (Eval.swap host.check left right) (host.steering.swap left' right') := by
  have l := follows_stepwise level root
  have k := steering_inStep host level root
  refine l.bind lefts fun s => l.bind (k.readTarget s trivial) fun a =>
    l.bind rights fun t => l.bind (k.readTarget t trivial) fun b => ?_
  cases a with
  | none => exact l.done _
  | some a =>
      cases b with
      | none => exact l.done _
      | some b =>
          exact l.bind (k.writeTarget s b trivial) fun _ =>
            l.bind (k.writeTarget t a trivial) fun _ => l.done a

/-- A steered node goes the way of the loops around it. -/
theorem follows_steer
    (invokes : ∀ n p, host.body? n = some p → ∀ level root name args,
      Follows level root (invoke name p args) (invoke' name p args))
    {t : Tree} (steered : t.Steered level) (within : t ∈ root.nodes) :
    Follows level root (t.eval host invoke) (t.steer host invoke' level) := by
  induction t using children_induction generalizing level with
  | step t ih =>
      have k := steering_inStep host level root
      have l := follows_stepwise level root
      have heads : ∀ child ∈ t.heads,
          Follows level root (child.eval host invoke) (child.steer host invoke' level) := by
        intro child member
        have below := mem_children.mpr (.inl member)
        exact ih child below (steered.head member) (mem_nodes_child within below)
      have inner : ∀ child, t.body? = some child → Follows (level + 1) root
          (child.eval host invoke) (child.steer host invoke' (level + 1)) := by
        intro child member
        have below := mem_children.mpr (.inr (Option.mem_toList.mpr member))
        exact ih child below (steered.body member) (mem_nodes_child within below)
      cases t <;> simp only [Tree.heads, children, List.mem_append, List.mem_cons,
        List.not_mem_nil, or_false, forall_eq, or_imp, forall_and] at heads <;>
        simp only [eval, steer]
      case null => exact l.done _
      case number x => exact l.done _
      case text s => exact l.done _
      case load b => exact k.load b trivial
      case size b => exact k.size b trivial
      case element b index => exact l.bind heads fun v => k.element b _ trivial
      case slice b first last =>
          exact l.bind (follows_index heads.1) fun x => l.bind (follows_index heads.2) fun y =>
            k.slice b x y trivial
      case apply op args => exact follows_items heads fun items _ => l.done _
      case logic op left right => exact l.connect op heads.1 heads.2
      case call callee args =>
          exact follows_call (fun n p found => invokes n p found level root) (follows_list heads)
      case branch test yes no =>
          apply l.bind (l.truth heads.1)
          intro holds
          cases holds with
          | true => exact heads.2.1
          | false => exact follows_option heads.2.2
      case switch cases default =>
          apply l.bind (follows_cases heads.1)
          intro found
          cases found with
          | some v => exact l.done v
          | none => exact follows_option heads.2
      case whileLoop test body =>
          exact follows_loop (l.truth heads) (l.done ()) (inner body rfl) _ _
      case forLoop first test step body =>
          exact l.bind (l.ignore (follows_option heads.1.1)) fun _ =>
            follows_loop (follows_test heads.1.2) (l.ignore (follows_option heads.2))
              (inner body rfl) _ _
      case repeatLoop body stop =>
          exact follows_loopUntil (inner body rfl) (l.truth heads) _ _
      case breakLoop payload =>
          exact l.bind (follows_index heads) fun x =>
            follows_note _ fun c => ⟨steered.exit rfl, rfl, c.since_exit level⟩
      case continueLoop => exact follows_note _ fun c => ⟨steered.exit rfl, rfl, c.since_exit level⟩
      case returnList items =>
          exact follows_items heads fun items items_eq =>
            follows_note _ fun c => ⟨c, items, .refl c, rfl, rfl, items_eq ▸ within⟩
      case sequence items => exact follows_sequence .null heads
      case declare slot shape parts =>
          exact l.initial shape (follows_list heads) (fun absent => follows_first absent heads)
            fun v holds => l.bind (k.declare slot shape v trivial holds) fun _ => l.done _
      case assign target op value =>
          exact l.bind heads.2 fun v => l.bind (follows_target heads.1) fun t =>
            k.assign t op v trivial
      case swap left right => exact follows_swap (follows_target heads.1) (follows_target heads.2)

/-- Bodies that are steered with no loop around them are invoked as the loops of the text say. -/
theorem follows_invoke (bodies : ∀ n p, host.body? n = some p → p.tree.Steered 0) (calls : Nat)
    {p : Program} (steered : p.tree.Steered 0) (name : String) (args : List Float) :
    Follows level root (host.invoke calls name p args) (host.steered calls name p args) := by
  induction calls generalizing level root name p args with
  | zero => exact follows_throw trivial
  | succ calls ih =>
      apply follows_enter
      exact follows_steer (fun n q found _ _ name args => ih (bodies n q found) name args)
        steered (mem_nodes_self _)

theorem follows_body (bodies : ∀ n p, host.body? n = some p → p.tree.Steered 0) (calls : Nat)
    {p : Program} (steered : p.tree.Steered 0) :
    Follows 0 p.tree (p.tree.eval host (host.invoke calls))
      (p.tree.steer host (host.steered calls) 0) :=
  follows_steer (fun n q found _ _ name args =>
    follows_invoke bodies calls (bodies n q found) name args) steered (mem_nodes_self _)

end

end

end MathScript
