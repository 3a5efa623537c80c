import MathScript.Proofs.Shapes
import MathScript.Proofs.Slots

/-!
Walks in lockstep. A relation of computations on two kinds of states is kept in lockstep if
everything a walk is put together from keeps it. Then it relates the walks of one tree over two
kernels as soon as it relates the kernels, step by step, and the invocations. The relation may
ask something of the bindings and slots of the tree.
-/

namespace MathScript

/-- What a node stops with on its own; any other fault comes from a step or an invocation. -/
def Signal.OfNode : Signal → Prop
  | .fault (.unavailable _) => True
  | .fault _ => False
  | .leave _ | .next | .give _ | .tired => True

/-- What a node stops with on its own, if it is no loop. -/
def Tree.Throws : Tree → Signal → Prop
  | .breakLoop _, .leave _ | .continueLoop, .next | .returnList _, .give _ => True
  | .call (.composed name _) _, .fault f => f = .unavailable name
  | _, _ => False

theorem Tree.Throws.ofNode {t : Tree} {e : Signal} (throws : t.Throws e) : e.OfNode := by
  unfold Throws at throws
  split at throws
  · trivial
  · trivial
  · trivial
  · subst throws
    trivial
  · exact throws.elim

/-- A relation kept by putting steps one behind the other. -/
structure Stepwise {σ τ : Type} (Rel : ∀ {α : Type}, Flow σ α → Flow τ α → Prop) : Prop where
  done {α : Type} (a : α) : Rel (pure a) (pure a)
  bind {α β : Type} {x : Flow σ α} {y : Flow τ α} {f : α → Flow σ β} {g : α → Flow τ β} :
    Rel x y → (∀ a, Rel (f a) (g a)) → Rel (x >>= f) (y >>= g)

/-- And by the ways nodes stop and loops go on. -/
structure Lockstep {σ τ : Type} (Rel : ∀ {α : Type}, Flow σ α → Flow τ α → Prop) : Prop
    extends Stepwise Rel where
  stop {α : Type} {e : Signal} : e.OfNode → Rel (throw e : Flow σ α) (throw e)
  round {x : Flow σ Value} {y : Flow τ Value} (last : Value) :
    Rel x y → Rel (Flow.round x last) (Flow.round y last)

variable {σ τ : Type} {Rel : ∀ {α : Type}, Flow σ α → Flow τ α → Prop}

namespace Stepwise

variable (l : Stepwise Rel)

include l

theorem truth {x : Flow σ Value} {y : Flow τ Value} (same : Rel x y) :
    Rel (Flow.truth x) (Flow.truth y) :=
  l.bind same fun v => l.done v.isTrue

theorem ignore {x : Flow σ Value} {y : Flow τ Value} (same : Rel x y) :
    Rel (Flow.ignore x) (Flow.ignore y) :=
  l.bind same fun _ => l.done ()

theorem connect (op : Connective) {x x' : Flow σ Value} {y y' : Flow τ Value} (left : Rel x y)
    (right : Rel x' y') : Rel (Flow.connect op x x') (Flow.connect op y y') := by
  apply l.bind left
  intro v
  cases op <;> cases v.isTrue
  · exact l.done _
  · exact l.bind right fun w => l.done _
  · exact l.bind right fun w => l.done _
  · exact l.done _

/-- What follows is told that there is one number more for every run. -/
theorem collect {α : Type} {item : Flow σ Value} {item' : Flow τ Value} (same : Rel item item')
    {f : Array Float → Flow σ α} {g : Array Float → Flow τ α} (count : Nat) (xs : Array Float)
    (rest : ∀ ys, ys.size = xs.size + count → Rel (f ys) (g ys)) :
    Rel (Flow.collect item count xs >>= f) (Flow.collect item' count xs >>= g) := by
  induction count generalizing xs with
  | zero =>
      simp only [Flow.collect, pure_bind]
      exact rest xs rfl
  | succ count ih =>
      simp only [Flow.collect, bind_assoc]
      refine l.bind same fun v => ih _ fun ys size => rest ys ?_
      rw [size, Array.size_push, Nat.add_assoc, Nat.add_comm 1]

/-- What follows is told that the value is one of the declared shape. -/
theorem initial {α : Type} (shape : Shape) {all : Flow σ (List Value)}
    {all' : Flow τ (List Value)} {first : Value → Flow σ Value} {first' : Value → Flow τ Value}
    {f : Value → Flow σ α} {g : Value → Flow τ α} (lists : Rel all all')
    (firsts : ∀ absent, Rel (first absent) (first' absent))
    (rest : ∀ v, shape.Holds v → Rel (f v) (g v)) :
    Rel (Flow.initial shape all first >>= f) (Flow.initial shape all' first' >>= g) := by
  cases shape with
  | scalar =>
      simp only [Flow.initial, bind_assoc, pure_bind]
      exact l.bind (firsts _) fun v => rest _ trivial
  | string =>
      simp only [Flow.initial, bind_assoc, pure_bind]
      exact l.bind (firsts _) fun v => rest _ trivial
  | vector length fill =>
      have filled : ∀ (fill : Fill) (xs : Array Float), Shape.Holds (.vector length fill)
          (.vector (Range.refill (Array.replicate length 0) xs)) := by
        simp [Shape.Holds]
      cases fill with
      | zero =>
          simp only [Flow.initial, pure_bind]
          exact rest _ Array.size_replicate
      | literal =>
          simp only [Flow.initial, bind_assoc, pure_bind]
          exact l.bind lists fun vs => rest _ (filled _ _)
      | each =>
          simp only [Flow.initial, bind_assoc, pure_bind]
          exact l.collect (firsts _) length #[] fun xs size =>
            rest _ (size.trans (Nat.zero_add length))
      | copy =>
          simp only [Flow.initial, bind_assoc, pure_bind]
          exact l.bind (firsts _) fun v => rest _ (filled _ _)

end Stepwise

namespace Lockstep

/-- Loops on both sides take as many rounds, or the left one may tire first. -/
def Outlasts (Rel : ∀ {α : Type}, Flow σ α → Flow τ α → Prop) (rounds rounds' : Nat) : Prop :=
  rounds = rounds' ∨ rounds ≤ rounds' ∧ ∀ y : Flow τ Value, Rel (throw .tired) y

theorem Outlasts.zero (l : Lockstep Rel) {rounds : Nat} (outlasts : Outlasts Rel 0 rounds)
    {y : Flow τ Value} (tires : rounds = 0 → y = throw .tired) : Rel (throw .tired) y := by
  rcases outlasts with same | ⟨-, tired⟩
  · rw [tires same.symm]
    exact l.stop trivial
  · exact tired y

theorem Outlasts.succ {rounds rounds' : Nat} (outlasts : Outlasts Rel (rounds + 1) rounds') :
    ∃ more, rounds' = more + 1 ∧ Outlasts Rel rounds more := by
  rcases outlasts with same | ⟨fewer, tired⟩
  · exact ⟨rounds, same.symm, .inl rfl⟩
  · exact ⟨rounds' - 1, by omega, .inr ⟨by omega, tired⟩⟩

variable (l : Lockstep Rel)

include l

theorem loop {test : Flow σ Bool} {test' : Flow τ Bool} {step : Flow σ Unit} {step' : Flow τ Unit}
    {body : Flow σ Value} {body' : Flow τ Value} (tests : Rel test test') (steps : Rel step step')
    (bodies : Rel body body') {rounds rounds' : Nat} (outlasts : Outlasts Rel rounds rounds')
    (last : Value) :
    Rel (Flow.loop test step body rounds last) (Flow.loop test' step' body' rounds' last) := by
  induction rounds generalizing rounds' last with
  | zero =>
      refine outlasts.zero l fun none => ?_
      rw [none]
      rfl
  | succ rounds ih =>
      obtain ⟨more, rfl, rest⟩ := outlasts.succ
      apply l.bind tests
      intro holds
      cases holds with
      | false => exact l.done last
      | true =>
          refine l.bind (l.round last bodies) fun (goes, last) => ?_
          cases goes with
          | false => exact l.done last
          | true => exact l.bind steps fun _ => ih rest last

theorem loopUntil {body : Flow σ Value} {body' : Flow τ Value} {stop : Flow σ Bool}
    {stop' : Flow τ Bool} (bodies : Rel body body') (stops : Rel stop stop')
    {rounds rounds' : Nat} (outlasts : Outlasts Rel rounds rounds') (last : Value) :
    Rel (Flow.loopUntil body stop rounds last) (Flow.loopUntil body' stop' rounds' last) := by
  induction rounds generalizing rounds' last with
  | zero =>
      refine outlasts.zero l fun none => ?_
      rw [none]
      rfl
  | succ rounds ih =>
      obtain ⟨more, rfl, rest⟩ := outlasts.succ
      refine l.bind (l.round last bodies) fun (goes, last) => ?_
      cases goes with
      | false => exact l.done last
      | true =>
          apply l.bind stops
          intro holds
          cases holds with
          | false => exact ih rest last
          | true => exact l.done last

end Lockstep

/-- A program over a kernel, from the top. -/
def Kernel.run {σ : Type} (k : Kernel σ) (host : Host) (program : Program) : Flow σ Value :=
  program.tree.walk k host (k.invoke host host.limit)

theorem Machine.run_kernel (host : Host) (program : Program) :
    (kernel host).run host program = program.tree.eval host (host.invoke host.limit) := by
  rw [Kernel.run, invoke_kernel, walk_kernel]

/-! ### Trees -/

/-- Every node of a tree has a property. -/
inductive Tree.Every (P : Tree → Prop) : Tree → Prop
  | node {t : Tree} (own : P t) (below : ∀ child ∈ t.children, Every P child) : Every P t

theorem Tree.Every.mono {P Q : Tree → Prop} {t : Tree} (every : t.Every P)
    (weaker : ∀ t, P t → Q t) : t.Every Q := by
  induction every with
  | node own _ ih => exact .node (weaker _ own) ih

theorem Tree.every_of_forall {P : Tree → Prop} (all : ∀ t, P t) (t : Tree) : t.Every P := by
  induction t using children_induction with
  | step t ih => exact .node (all t) ih

/-- What a node itself reads, writes, declares and calls is as told. -/
structure Tree.Fits (binds : Binding → Prop) (slots : Nat → Shape → Prop) (defs : Nat → Prop)
    (t : Tree) : Prop where
  bindings : ∀ b ∈ t.bindings, binds b
  declares : ∀ d ∈ t.declaration?, slots d.1 d.2
  calls : ∀ n ∈ t.calls, defs n

theorem Tree.every_fits (t : Tree) :
    t.Every (Fits (fun _ => True) (fun _ _ => True) fun _ => True) :=
  every_of_forall (fun _ => ⟨fun _ _ => trivial, fun _ _ => trivial, fun _ _ => trivial⟩) t

open Tree Kernel

variable {σ τ : Type} {Rel : ∀ {α : Type}, Flow σ α → Flow τ α → Prop}
  {binds : Binding → Prop} {slots : Nat → Shape → Prop} {defs : Nat → Prop}

/-- Kernels whose steps are related, for such bindings and slots. -/
structure Kernel.InStep (A : Kernel σ) (B : Kernel τ)
    (Rel : ∀ {α : Type}, Flow σ α → Flow τ α → Prop) (binds : Binding → Prop)
    (slots : Nat → Shape → Prop) : Prop where
  load : ∀ b, binds b → Rel (A.load b) (B.load b)
  element : ∀ b x, binds b → Rel (A.element b x) (B.element b x)
  slice : ∀ b x y, binds b → Rel (A.slice b x y) (B.slice b x y)
  size : ∀ b, binds b → Rel (A.size b) (B.size b)
  assign : ∀ t op v, binds t.binding → Rel (A.assign t op v) (B.assign t op v)
  readTarget : ∀ t, binds t.binding → Rel (A.readTarget t) (B.readTarget t)
  writeTarget : ∀ t v, binds t.binding → Rel (A.writeTarget t v) (B.writeTarget t v)
  declare : ∀ slot shape v, slots slot shape → shape.Holds v →
    Rel (A.declare slot shape.kind v) (B.declare slot shape.kind v)
  numeric : ∀ native vs, Rel (A.numeric native vs) (B.numeric native vs)
  generic : ∀ native overload writeback args vs, (∀ b ∈ writeback.filterMap id, binds b) →
    Rel (A.generic native overload writeback args vs) (B.generic native overload writeback args vs)
  applied : ∀ op args vs, Rel (A.applied op args vs) (B.applied op args vs)
  finished : ∀ t v, Rel (A.finished t v) (B.finished t v)

/-- What a node itself does is related on two kernels. -/
def Kernel.InStepAt (A : Kernel σ) (B : Kernel τ)
    (Rel : ∀ {α : Type}, Flow σ α → Flow τ α → Prop) : Tree → Prop
  | .load b => Rel (A.load b) (B.load b)
  | .element b _ => ∀ x, Rel (A.element b x) (B.element b x)
  | .slice b _ _ => ∀ x y, Rel (A.slice b x y) (B.slice b x y)
  | .size b => Rel (A.size b) (B.size b)
  | .apply op args => ∀ vs, Rel (A.applied op args vs) (B.applied op args vs)
  | .call (.scalar _ native) _ | .call (.vararg _ native) _ =>
      ∀ vs, Rel (A.numeric native vs) (B.numeric native vs)
  | .call (.generic _ native overload writeback) args =>
      ∀ vs, Rel (A.generic native overload writeback args vs)
        (B.generic native overload writeback args vs)
  | .declare slot shape _ => ∀ v, shape.Holds v →
      Rel (A.declare slot shape.kind v) (B.declare slot shape.kind v)
  | .assign target op _ => ∀ t, t.binding = target.binding → ∀ v,
      Rel (A.assign t op v) (B.assign t op v)
  | .swap left right => ∀ t, t.binding = left.binding ∨ t.binding = right.binding →
      Rel (A.readTarget t) (B.readTarget t) ∧ ∀ v, Rel (A.writeTarget t v) (B.writeTarget t v)
  | _ => True

namespace Kernel.InStep

/-- If whatever runs is related to itself, every kernel is in step with itself. -/
theorem self {Rel : ∀ {α : Type}, Flow σ α → Flow σ α → Prop}
    (same : ∀ {α : Type} (x : Flow σ α), Rel x x) (k : Kernel σ) : k.InStep k Rel binds slots where
  load _ _ := same _
  element _ _ _ := same _
  slice _ _ _ _ := same _
  size _ _ := same _
  assign _ _ _ _ := same _
  readTarget _ _ := same _
  writeTarget _ _ _ := same _
  declare _ _ _ _ _ := same _
  numeric _ _ := same _
  generic _ _ _ _ _ _ := same _
  applied _ _ _ := same _
  finished _ _ := same _

variable {A : Kernel σ} {B : Kernel τ} {host host' : Host} {invoke : Invoking σ}
  {invoke' : Invoking τ}

section

variable (l : Stepwise Rel)

include l

theorem walkOption {t : Option Tree}
    (same : ∀ u ∈ t.toList, Rel (u.walk A host invoke) (u.walk B host' invoke')) :
    Rel (walkOption A host invoke t) (walkOption B host' invoke' t) := by
  cases t with
  | none => exact l.done _
  | some u => exact same u (by simp)

theorem walkIndex {t : Option Tree}
    (same : ∀ u ∈ t.toList, Rel (u.walk A host invoke) (u.walk B host' invoke')) :
    Rel (walkIndex A host invoke t) (walkIndex B host' invoke' t) := by
  cases t with
  | none => exact l.done none
  | some u => exact l.bind (same u (by simp)) fun v => l.done _

theorem walkTest {t : Option Tree}
    (same : ∀ u ∈ t.toList, Rel (u.walk A host invoke) (u.walk B host' invoke')) :
    Rel (walkTest A host invoke t) (walkTest B host' invoke' t) := by
  cases t with
  | none => exact l.done true
  | some u => exact l.truth (same u (by simp))

theorem walkList {ts : List Tree}
    (same : ∀ u ∈ ts, Rel (u.walk A host invoke) (u.walk B host' invoke')) :
    Rel (walkList A host invoke ts) (walkList B host' invoke' ts) := by
  induction ts with
  | nil => exact l.done []
  | cons t ts ih =>
      have tails := ih fun u inside => same u (List.mem_cons_of_mem t inside)
      exact l.bind (same t (by simp)) fun v => l.bind tails fun vs => l.done (v :: vs)

theorem walkFirst (absent : Value) {ts : List Tree}
    (same : ∀ u ∈ ts, Rel (u.walk A host invoke) (u.walk B host' invoke')) :
    Rel (walkFirst A host invoke absent ts) (walkFirst B host' invoke' absent ts) := by
  cases ts with
  | nil => exact l.done absent
  | cons t ts => exact same t (by simp)

theorem walkSequence (last : Value) {ts : List Tree}
    (same : ∀ u ∈ ts, Rel (u.walk A host invoke) (u.walk B host' invoke')) :
    Rel (walkSequence A host invoke last ts) (walkSequence B host' invoke' last ts) := by
  induction ts generalizing last with
  | nil => exact l.done last
  | cons t ts ih =>
      exact l.bind (same t (by simp)) fun v =>
        ih v fun u inside => same u (List.mem_cons_of_mem t inside)

theorem walkCases {cases : List (Tree × Tree)}
    (same : ∀ u ∈ cases.flatMap fun (test, body) => [test, body],
      Rel (u.walk A host invoke) (u.walk B host' invoke')) :
    Rel (walkCases A host invoke cases) (walkCases B host' invoke' cases) := by
  induction cases with
  | nil => exact l.done none
  | cons c cases ih =>
      obtain ⟨test, body⟩ := c
      simp only [List.flatMap_cons, List.mem_append] at same
      apply l.bind (l.truth (same test (by simp)))
      intro holds
      cases holds with
      | true => exact l.bind (same body (by simp)) fun v => l.done (some v)
      | false => exact ih fun u inside => same u (.inr inside)

/-- What follows a target is told that the target has kept its binding. -/
theorem walkTarget {α : Type} {target : Target Tree} {f : Target Float → Flow σ α}
    {g : Target Float → Flow τ α}
    (same : ∀ u ∈ target.indices, Rel (u.walk A host invoke) (u.walk B host' invoke'))
    (rest : ∀ t : Target Float, t.binding = target.binding → Rel (f t) (g t)) :
    Rel (walkTarget A host invoke target >>= f) (walkTarget B host' invoke' target >>= g) := by
  cases target with
  | whole b =>
      simp only [Tree.walkTarget, pure_bind]
      exact rest _ rfl
  | element b index =>
      simp only [Tree.walkTarget, bind_assoc, pure_bind]
      exact l.bind (same index (by simp [Target.indices])) fun v => rest _ rfl
  | range b first last =>
      simp only [Target.indices, List.mem_append] at same
      simp only [Tree.walkTarget, bind_assoc, pure_bind]
      exact l.bind (walkIndex l fun u inside => same u (.inl inside)) fun x =>
        l.bind (walkIndex l fun u inside => same u (.inr inside)) fun y => rest _ rfl

theorem call {callee : Callee} {args : List Tree} {values : Flow σ (List Value)}
    {values' : Flow τ (List Value)} (own : A.InStepAt B Rel (.call callee args))
    (absent : ∀ n ∈ callee.definitions, Rel (throw (.fault (.unavailable callee.name)) : Flow σ Value)
      (throw (.fault (.unavailable callee.name))))
    (bodies : ∀ n, host.body? n = host'.body? n)
    (invokes : ∀ n ∈ callee.definitions, ∀ p, host.body? n = some p → ∀ name args,
      Rel (invoke name p args) (invoke' name p args))
    (same : Rel values values') :
    Rel (A.call host invoke callee args values) (B.call host' invoke' callee args values') := by
  cases callee with
  | scalar name native => exact l.bind same own
  | vararg name native => exact l.bind same own
  | generic name native overload writeback => exact l.bind same own
  | composed name definition =>
      simp only [Kernel.call, ← bodies]
      cases found : host.body? definition with
      | none => exact absent definition (by simp [Callee.definitions])
      | some p =>
          exact l.bind same fun vs => l.bind
            (invokes definition (by simp [Callee.definitions]) p found name _) fun x => l.done _

theorem swap {left right : Target Tree} (own : A.InStepAt B Rel (.swap left right))
    (lefts : ∀ u ∈ left.indices, Rel (u.walk A host invoke) (u.walk B host' invoke'))
    (rights : ∀ u ∈ right.indices, Rel (u.walk A host invoke) (u.walk B host' invoke')) :
    Rel (A.swap (Tree.walkTarget A host invoke left) (Tree.walkTarget A host invoke right))
      (B.swap (Tree.walkTarget B host' invoke' left)
        (Tree.walkTarget B host' invoke' right)) := by
  refine walkTarget l lefts fun s s_eq => l.bind (own s (.inl s_eq)).1 fun a =>
    walkTarget l rights fun t t_eq => l.bind (own t (.inr t_eq)).1 fun b => ?_
  cases a with
  | none => exact l.done _
  | some a =>
      cases b with
      | none => exact l.done _
      | some b =>
          exact l.bind ((own s (.inl s_eq)).2 b) fun _ =>
            l.bind ((own t (.inr t_eq)).2 a) fun _ => l.done a

theorem closing {t : Tree} {x : Flow σ Value} {y : Flow τ Value} (same : Rel x y)
    (finished : ∀ v, Rel (A.finished t v) (B.finished t v)) :
    Rel (A.closing t x) (B.closing t y) :=
  l.bind same fun v => l.bind (finished v) fun _ => l.done v

/-- A node that is no loop walks in step if what it does itself is in step, the nodes below it
walk so, and what it may stop with goes with itself. -/
theorem walk_step {t : Tree} (flat : t.body? = none) (own : A.InStepAt B Rel t)
    (stops : ∀ e, t.Throws e → Rel (throw e : Flow σ Value) (throw e))
    (finished : ∀ v, Rel (A.finished t v) (B.finished t v))
    (bodies : ∀ n, host.body? n = host'.body? n)
    (invokes : ∀ n ∈ t.calls, ∀ p, host.body? n = some p → ∀ name args,
      Rel (invoke name p args) (invoke' name p args))
    (below : ∀ u ∈ t.children, Rel (u.walk A host invoke) (u.walk B host' invoke')) :
    Rel (t.walk A host invoke) (t.walk B host' invoke') := by
  rw [walk.eq_def, walk.eq_def B]
  refine closing l ?_ finished
  -- One hypothesis for each child, in the form the lemmas above ask for.
  cases t <;> simp only [children, List.mem_append, List.mem_cons, List.not_mem_nil,
    or_false, forall_eq, or_imp, forall_and] at below
  case null => exact l.done _
  case number x => exact l.done _
  case text s => exact l.done _
  case load b => exact own
  case size b => exact own
  case continueLoop => exact stops _ trivial
  case element b index => exact l.bind below fun v => own _
  case slice b first last =>
      exact l.bind (walkIndex l below.1) fun x => l.bind (walkIndex l below.2) fun y => own x y
  case apply op args =>
      exact l.bind (walkList l below) fun vs => l.bind (own vs) fun _ => l.done _
  case logic op left right => exact l.connect op below.1 below.2
  case call callee args =>
      have absent : ∀ n ∈ callee.definitions,
          Rel (throw (.fault (.unavailable callee.name)) : Flow σ Value)
            (throw (.fault (.unavailable callee.name))) := by
        intro n defined
        cases callee with
        | composed name definition => exact stops _ rfl
        | scalar | vararg | generic => cases defined
      exact call l own absent bodies invokes (walkList l below)
  case branch test yes no =>
      apply l.bind (l.truth below.1)
      intro holds
      cases holds with
      | true => exact below.2.1
      | false => exact walkOption l below.2.2
  case switch cases default =>
      apply l.bind (walkCases l below.1)
      intro found
      cases found with
      | some v => exact l.done v
      | none => exact walkOption l below.2
  case whileLoop test body => cases flat
  case forLoop first test step body => cases flat
  case repeatLoop body stop => cases flat
  case breakLoop payload => exact l.bind (walkIndex l below) fun x => stops (.leave x) trivial
  case returnList items => exact l.bind (walkList l below) fun vs => stops (.give vs) trivial
  case sequence items => exact walkSequence l .null below
  case declare slot shape parts =>
      exact l.initial shape (walkList l below) (fun absent => walkFirst l absent below)
        fun v holds => l.bind (own v holds) fun _ => l.done _
  case assign target op value =>
      exact l.bind below.2 fun v => walkTarget l below.1 fun t t_eq => own t t_eq v
  case swap left right => exact swap l own below.1 below.2

omit l in
theorem walk_step_self {Rel : ∀ {α : Type}, Flow σ α → Flow σ α → Prop} (l : Stepwise Rel)
    {t : Tree} (flat : t.body? = none) (own : A.InStepAt A Rel t)
    (stops : ∀ e, t.Throws e → Rel (throw e : Flow σ Value) (throw e))
    (finished : ∀ v, Rel (A.finished t v) (A.finished t v))
    (invokes : ∀ n ∈ t.calls, ∀ p, host.body? n = some p → ∀ name args,
      Rel (invoke name p args) (invoke name p args))
    (below : ∀ u ∈ t.children, Rel (u.walk A host invoke) (u.walk A host invoke)) :
    Rel (t.walk A host invoke) (t.walk A host invoke) :=
  walk_step l flat own stops finished (fun _ => rfl) invokes below

end

section

variable (l : Lockstep Rel)

include l

/-- A node walks in lockstep if what it does itself is in step and the nodes below it are. -/
theorem walk_node {t : Tree} (own : A.InStepAt B Rel t)
    (finished : ∀ v, Rel (A.finished t v) (B.finished t v))
    (outlasts : Lockstep.Outlasts Rel host.rounds host'.rounds)
    (bodies : ∀ n, host.body? n = host'.body? n)
    (invokes : ∀ n ∈ t.calls, ∀ p, host.body? n = some p → ∀ name args,
      Rel (invoke name p args) (invoke' name p args))
    (below : ∀ u ∈ t.children, Rel (u.walk A host invoke) (u.walk B host' invoke')) :
    Rel (t.walk A host invoke) (t.walk B host' invoke') := by
  have s := l.toStepwise
  by_cases flat : t.body? = none
  · exact walk_step s flat own (fun e throws => l.stop throws.ofNode) finished bodies invokes below
  rw [walk.eq_def, walk.eq_def B]
  refine closing s ?_ finished
  cases t <;> simp only [children, List.mem_append, List.mem_cons, List.not_mem_nil,
    or_false, forall_eq, or_imp, forall_and] at below
  case whileLoop test body =>
      exact l.loop (l.truth below.1) (l.done ()) below.2 outlasts .null
  case forLoop first test step body =>
      obtain ⟨⟨⟨firsts, tests⟩, steps⟩, bodies⟩ := below
      exact l.bind (l.ignore (walkOption s firsts)) fun _ =>
        l.loop (walkTest s tests) (l.ignore (walkOption s steps)) bodies outlasts .null
  case repeatLoop body stop => exact l.loopUntil below.1 (l.truth below.2) outlasts .null
  all_goals exact absurd rfl flat

omit l in
/-- Kernels in step are in step at every node that fits. -/
theorem inStepAt (k : A.InStep B Rel binds slots) {t : Tree} (own : t.Fits binds slots defs) :
    A.InStepAt B Rel t := by
  obtain ⟨bound, declared, -⟩ := own
  cases t with
  | load b => exact k.load b (bound b (by simp [Tree.bindings]))
  | element b index => exact fun x => k.element b x (bound b (by simp [Tree.bindings]))
  | slice b first last => exact fun x y => k.slice b x y (bound b (by simp [Tree.bindings]))
  | size b => exact k.size b (bound b (by simp [Tree.bindings]))
  | apply op args => exact k.applied op args
  | call callee args =>
      cases callee with
      | scalar name native => exact k.numeric native
      | vararg name native => exact k.numeric native
      | generic name native overload writeback =>
          exact fun vs => k.generic native overload writeback args vs bound
      | composed name definition => trivial
  | declare slot shape parts => exact fun v holds => k.declare slot shape v (declared _ rfl) holds
  | assign target op value =>
      exact fun t same v => k.assign t op v (same ▸ bound _ (by simp [Tree.bindings]))
  | swap left right =>
      intro t same
      have held : binds t.binding := bound _ (by simpa [Tree.bindings] using same)
      exact ⟨k.readTarget t held, fun v => k.writeTarget t v held⟩
  | null | number | text | logic | branch | switch | whileLoop | forLoop | repeatLoop | breakLoop
  | continueLoop | returnList | sequence => trivial

/-- Over kernels in step a tree walks in lockstep. -/
theorem walk (k : A.InStep B Rel binds slots)
    (outlasts : Lockstep.Outlasts Rel host.rounds host'.rounds)
    (bodies : ∀ n, host.body? n = host'.body? n)
    (invokes : ∀ n p, defs n → host.body? n = some p → ∀ name args,
      Rel (invoke name p args) (invoke' name p args))
    {t : Tree} (fits : t.Every (Fits binds slots defs)) :
    Rel (t.walk A host invoke) (t.walk B host' invoke') := by
  induction fits with
  | @node t own below ih =>
      exact walk_node l (k.inStepAt own) (k.finished t) outlasts bodies
        (fun n called p => invokes n p (own.calls n called)) ih

/-- Over kernels that are in step everywhere, every tree walks in lockstep on one host. -/
theorem walk_all (k : A.InStep B Rel (fun _ => True) fun _ _ => True) (host : Host)
    (invokes : ∀ name p args, Rel (invoke name p args) (invoke' name p args)) (t : Tree) :
    Rel (t.walk A host invoke) (t.walk B host invoke') :=
  walk l k (.inl rfl) (fun _ => rfl) (fun _ p _ _ name args => invokes name p args) t.every_fits

omit l in
theorem walk_self {Rel : ∀ {α : Type}, Flow σ α → Flow σ α → Prop} (l : Lockstep Rel)
    (k : A.InStep A Rel (fun _ => True) fun _ _ => True) (host : Host)
    (invokes : ∀ name p args, Rel (invoke name p args) (invoke name p args)) (t : Tree) :
    Rel (t.walk A host invoke) (t.walk A host invoke) :=
  walk_all l k host invokes t

omit l in
theorem walk_node_self {Rel : ∀ {α : Type}, Flow σ α → Flow σ α → Prop} (l : Lockstep Rel)
    {t : Tree} (own : A.InStepAt A Rel t) (finished : ∀ v, Rel (A.finished t v) (A.finished t v))
    (invokes : ∀ n ∈ t.calls, ∀ p, host.body? n = some p → ∀ name args,
      Rel (invoke name p args) (invoke name p args))
    (below : ∀ u ∈ t.children, Rel (u.walk A host invoke) (u.walk A host invoke)) :
    Rel (t.walk A host invoke) (t.walk A host invoke) :=
  walk_node l own finished (.inl rfl) (fun _ => rfl) invokes below

/-- Calls run in lockstep, with as many calls to go on both sides or with fewer on the left, if a
refusal on the left goes with whatever comes then on the right. -/
theorem calls (k : A.InStep B Rel (fun _ => True) fun _ _ => True)
    (outlasts : Lockstep.Outlasts Rel host.rounds host'.rounds)
    (bodies : ∀ n, host.body? n = host'.body? n)
    (enters : ∀ p args x y, Rel x y → Rel (A.enter p args x) (B.enter p args y))
    {depth depth' : Nat} (fewer : depth ≤ depth')
    (refused : ∀ name (y : Flow τ Float),
      (depth = depth' → y = throw (.fault (.recursionLimit name host'.limit))) →
      Rel (throw (.fault (.recursionLimit name host.limit))) y)
    (name : String) (p : Program) (args : List Float) :
    Rel (A.invoke host depth name p args) (B.invoke host' depth' name p args) := by
  induction depth generalizing depth' name p args with
  | zero =>
      apply refused
      rintro rfl
      rfl
  | succ depth ih =>
      obtain ⟨more, rfl⟩ : ∃ more, depth' = more + 1 := ⟨depth' - 1, by omega⟩
      apply enters
      refine walk l k outlasts bodies (fun n q _ _ name args => ?_) p.tree.every_fits
      apply ih (by omega)
      intro name y equal
      exact refused name y fun same => equal (by omega)

/-- Whole programs run in lockstep, each side with the calls its host allows. -/
theorem runs (k : A.InStep B Rel (fun _ => True) fun _ _ => True)
    (outlasts : Lockstep.Outlasts Rel host.rounds host'.rounds)
    (bodies : ∀ n, host.body? n = host'.body? n)
    (enters : ∀ p args x y, Rel x y → Rel (A.enter p args x) (B.enter p args y))
    (fewer : host.limit ≤ host'.limit)
    (refused : ∀ name (y : Flow τ Float),
      (host.limit = host'.limit → y = throw (.fault (.recursionLimit name host'.limit))) →
      Rel (throw (.fault (.recursionLimit name host.limit))) y)
    (p : Program) : Rel (A.run host p) (B.run host' p) :=
  walk l k outlasts bodies
    (fun _ q _ _ name args => calls l k outlasts bodies enters fewer refused name q args)
    p.tree.every_fits

end

end Kernel.InStep

end MathScript
