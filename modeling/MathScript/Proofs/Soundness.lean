import MathScript.Proofs.Steps

/-!
Recorded walks of well-built trees. A node leads from a good state to a good state if the nodes
below it and the functions it calls do; what it yields suits its kind, and a declaration brings
its slot into use. By induction over what is built, then over the depth of calls, the log of a
whole evaluation is kept.
-/

namespace MathScript

open Tape Tree Kernel

/-- A function of so many parameters, built on a layout of its own with the names it is granted. -/
def Program.BuiltFor (offers : Grant → Prop) (arity : Nat) (p : Program) : Prop :=
  ∃ layout : List Slot, layout.length = p.frameSize ∧
    (∀ i < arity, layout[i]?.map Slot.kind = some .scalar) ∧
    (∀ slot ∈ layout, offers (.declare slot.name slot.writable)) ∧
    Built offers layout (List.range arity) p.tree

/-- The functions of a host that are still to be had are built for the number of parameters
they are offered with. -/
def Host.Honours (host : Host) (offers : Grant → Prop) : Prop :=
  ∀ name n arity p, offers (.call name (.composed n arity)) → host.body? n = some p →
    p.BuiltFor offers arity

/-- An invocation that comes back to a good state of its caller. -/
def Safe (offers : Grant → Prop) (host : Host) (invoke : Invoking Tape) : Prop :=
  ∀ layout live s name n p args, offers (.call name (.composed n args.length)) →
    host.body? n = some p →
    SteadyAt offers layout live s (invoke name p args) fun _ _ => True

/-- A node leads to a good state, with its own slot in use once it has completed. -/
def Walks (offers : Grant → Prop) (layout : List Slot) (host : Host) (invoke : Invoking Tape)
    (live : List Nat) (t : Tree) : Prop :=
  ∀ s, Good offers layout live s →
    Ends (t.walk (kernel host) host invoke) s
      (fun v s' => Step offers layout (t.declares ++ live) s s' ∧ Suits t.kind v s')
      fun _ s' => Step offers layout live s s'

section

variable {offers : Grant → Prop} {layout : List Slot} {live : List Nat} {host : Host}
  {invoke : Invoking Tape} {s : Tape}

/-! ### Lists, options and targets -/

theorem Walks.steady {t : Tree} (walks : Walks offers layout host invoke live t) :
    SteadyAt offers layout live s (t.walk (kernel host) host invoke) (Suits t.kind) :=
  fun good => (walks s good).mono
    (fun _ _ after => ⟨after.1.fewer (List.subset_append_right _ _), after.2⟩) fun _ _ => id

theorem Walks.keeps {t : Tree} (walks : Walks offers layout host invoke live t) (s : Tape) :
    Keeps (Step offers layout live s) (t.walk (kernel host) host invoke) :=
  Steady.keeps (fun _ => walks.steady) s

theorem walkOption_ends {t : Option Tree}
    (walks : ∀ u ∈ t.toList, Walks offers layout host invoke live u)
    (good : Good offers layout live s) :
    Ends (walkOption (kernel host) host invoke t) s
      (fun v s' => Step offers layout (t.toList.flatMap declares ++ live) s s' ∧
        ∀ kind, (∀ u ∈ t.toList, u.kind = kind) → Suits kind v s')
      fun _ s' => Step offers layout live s s' := by
  cases t with
  | none => exact ends_pure ⟨Step.refl good, fun _ _ _ => .inl rfl⟩
  | some u =>
      refine (walks u (by simp) s good).mono (fun v s' after => ?_) fun _ _ => id
      -- Null suits every kind, so an absent tree promises all that the kinds of the present ask.
      refine ⟨by simpa using after.1, fun kind same => ?_⟩
      rw [← same u (by simp)]
      exact after.2

theorem walkOption_steady {t : Option Tree} {kind : Kind}
    (walks : ∀ u ∈ t.toList, Walks offers layout host invoke live u)
    (same : ∀ u ∈ t.toList, u.kind = kind) :
    SteadyAt offers layout live s (walkOption (kernel host) host invoke t) (Suits kind) :=
  fun good => (walkOption_ends walks good).mono
    (fun _ _ after => ⟨after.1.fewer (List.subset_append_right _ _), after.2 kind same⟩)
    fun _ _ => id

theorem walkIndex_steady {t : Option Tree}
    (walks : ∀ u ∈ t.toList, Walks offers layout host invoke live u) :
    SteadyAt offers layout live s (walkIndex (kernel host) host invoke t) fun _ _ => True := by
  cases t with
  | none => exact steadyAt_pure trivial
  | some u => exact (walks u (by simp)).steady.bind fun _ _ _ _ => steadyAt_pure trivial

theorem walkTest_keeps {t : Option Tree}
    (walks : ∀ u ∈ t.toList, Walks offers layout host invoke live u) (s : Tape) :
    Keeps (Step offers layout live s) (walkTest (kernel host) host invoke t) := by
  cases t with
  | none => exact keeps_pure true
  | some u => exact Flow.keeps_truth ((walks u (by simp)).keeps s)

theorem walkList_steady {ts : List Tree}
    (walks : ∀ u ∈ ts, Walks offers layout host invoke live u) :
    SteadyAt offers layout live s (walkList (kernel host) host invoke ts) fun vs s' =>
      vs.length = ts.length ∧ (Clean s'.log → ∀ v a, (v, a) ∈ vs.zip ts → v.Fits a.kind) := by
  induction ts generalizing s with
  | nil => exact steadyAt_pure ⟨rfl, by simp⟩
  | cons t ts ih =>
      apply (walks t (by simp)).steady.bind
      intro v s' _ suits
      refine (ih fun u inside => walks u (List.mem_cons_of_mem t inside)).bind
        fun vs s'' step fits => steadyAt_pure ⟨by simp [fits.1], fun clean w a paired => ?_⟩
      rcases List.mem_cons.mp paired with same | rest
      · obtain ⟨rfl, rfl⟩ := Prod.mk.inj same
        exact suits (clean.sub step.grown)
      · exact fits.2 clean w a rest

theorem walkFirst_steady (absent : Value) {ts : List Tree}
    (walks : ∀ u ∈ ts, Walks offers layout host invoke live u) :
    SteadyAt offers layout live s (walkFirst (kernel host) host invoke absent ts)
      fun _ _ => True := by
  cases ts with
  | nil => exact steadyAt_pure trivial
  | cons t ts => exact (walks t (by simp)).steady.mono fun _ _ _ _ => trivial

/-- Statements in order: each has the slots of those before it in use. -/
theorem walkSequence_steady {ts : List Tree} {kind : Kind} {last : Value}
    (walks : ∀ before t after, ts = before ++ t :: after →
      ∀ live', before.flatMap declares ++ live ⊆ live' →
        Walks offers layout host invoke live' t)
    (suits : Suits kind last s) :
    SteadyAt offers layout live s (walkSequence (kernel host) host invoke last ts)
      (Suits (lastKind kind ts)) := by
  -- The slots in use grow from statement to statement, and with them the claim on the rest.
  induction ts generalizing live kind last s with
  | nil => exact steadyAt_pure suits
  | cons t ts ih =>
      intro good
      have first := walks [] t ts rfl live (by simp) s good
      have rest : ∀ before u after, ts = before ++ u :: after →
          ∀ live', before.flatMap declares ++ (t.declares ++ live) ⊆ live' →
            Walks offers layout host invoke live' u := by
        intro before u after split live' more
        apply walks (t :: before) u after (by simp [split]) live'
        intro i inside
        apply more
        simp only [List.flatMap_cons, List.mem_append] at inside ⊢
        rcases inside with (own | front) | old
        · exact .inr (.inl own)
        · exact .inl front
        · exact .inr (.inr old)
      refine ends_bind (first.mono ?_ fun _ _ step => step)
      rintro v s' ⟨step, suits'⟩
      have less : live ⊆ t.declares ++ live := List.subset_append_right _ _
      exact (ih rest suits' step.good).mono
        (fun w s'' after => ⟨(step.fewer less).trans (after.1.fewer less), after.2⟩)
        fun _ s'' after => (step.fewer less).trans (after.fewer less)

theorem walkCases_steady {cases : List (Tree × Tree)} {kind : Kind}
    (tests : ∀ c ∈ cases, Walks offers layout host invoke live c.1)
    (bodies : ∀ c ∈ cases, Walks offers layout host invoke live c.2)
    (same : ∀ c ∈ cases, c.2.kind = kind) :
    SteadyAt offers layout live s (walkCases (kernel host) host invoke cases)
      fun found s' => ∀ v, found = some v → Suits kind v s' := by
  induction cases generalizing s with
  | nil => exact steadyAt_pure (by simp)
  | cons c cases ih =>
      obtain ⟨test, body⟩ := c
      simp only [List.forall_mem_cons] at tests bodies same
      have decided : SteadyAt offers layout live s
          (Flow.truth (test.walk (kernel host) host invoke)) fun _ _ => True :=
        tests.1.steady.bind fun _ _ _ _ => steadyAt_pure trivial
      apply decided.bind
      intro holds s' _ _
      cases holds with
      | false => exact ih tests.2 bodies.2 same.2
      | true =>
          apply bodies.1.steady.bind
          intro v s'' _ suits
          apply steadyAt_pure
          rintro w ⟨⟩
          exact same.1 ▸ suits

/-- A target with its indices evaluated is the same target otherwise. -/
def Target.Like {α β : Type} (target : Target α) (other : Target β) : Prop :=
  other.binding = target.binding ∧ other.kind = target.kind ∧ (target.Open → other.Open)

theorem walkTarget_steady {target : Target Tree}
    (walks : ∀ u ∈ target.indices, Walks offers layout host invoke live u) :
    SteadyAt offers layout live s (walkTarget (kernel host) host invoke target)
      fun other _ => target.Like other := by
  cases target with
  | whole b => exact steadyAt_pure ⟨rfl, rfl, id⟩
  | element b index =>
      exact (walks index (by simp [Target.indices])).steady.bind fun _ _ _ _ =>
        steadyAt_pure ⟨rfl, rfl, id⟩
  | range b first last =>
      simp only [Target.indices, List.mem_append] at walks
      exact (walkIndex_steady fun u inside => walks u (.inl inside)).bind fun _ _ _ _ =>
        (walkIndex_steady fun u inside => walks u (.inr inside)).bind fun _ _ _ _ =>
          steadyAt_pure ⟨rfl, rfl, id⟩

theorem Target.Open.reach_eq {α : Type} {target : Target α} (reach : target.Open) :
    target.reach = target.binding.kind := by
  cases target with
  | whole b => rfl
  | element b index => exact reach.2.symm
  | range b first last => exact reach.2.symm

theorem Target.Open.writable {α : Type} {target : Target α} (reach : target.Open) :
    target.binding.writable = true := by
  cases target with
  | whole b => exact reach
  | element b index => exact reach.1
  | range b first last => exact reach.1

/-! ### Nodes -/

/-- A node may keep the promise of its kind by not being stray. -/
def Tells (t : Tree) (v : Value) (s : Tape) : Prop :=
  ∀ m : Moment, m.event = .finish t v → Clean (m :: s.log) → v.Fits t.kind

theorem Suits.tells {t : Tree} {v : Value} (suits : Suits t.kind v s) : Tells t v s :=
  fun m _ clean => suits (clean.sub (List.subset_cons_self m s.log))

theorem tells_loop {t : Tree} (loop : t.isLoop = true) (v : Value) : Tells t v s := by
  intro m finished clean
  -- A loop counts as a number. If its value does not fit, this very moment is stray.
  by_cases fits : v.Fits .scalar
  · cases t <;> simp only [isLoop, Bool.false_eq_true] at loop <;> exact fits
  · have stray : m.Stray := by
      simp only [Moment.Stray, finished]
      exact ⟨loop, fits⟩
    exact absurd stray (clean m List.mem_cons_self)

theorem closing_ends {live' : List Nat} {t : Tree} {x : Flow Tape Value}
    (ends : Ends x s (fun v s' => Step offers layout live' s s' ∧ Tells t v s')
      fun _ s' => Step offers layout live s s') :
    Ends ((kernel host).closing t x) s
      (fun v s' => Step offers layout live' s s' ∧ Suits t.kind v s')
      fun _ s' => Step offers layout live s s' := by
  refine ends_bind (ends.mono (fun v s' after => ?_) fun _ _ step => step)
  obtain ⟨step, tells⟩ := after
  refine ends_bind (ends_modify (ends_pure ?_))
  have told := tells ⟨.finish t v, s'.machine.locals, s'.frame⟩ rfl
  have kept := step.good.kept.cons (m := ⟨.finish t v, s'.machine.locals, s'.frame⟩)
    (by trivial) (by trivial) (by trivial) told (fun _ => by trivial) fun astray fits => ?_
  · exact ⟨⟨⟨step.good.sits.still fun _ => rfl, kept⟩,
      List.Subset.trans step.grown (List.subset_cons_self _ _)⟩, told⟩
  · apply astray.2
    have loop := astray.1
    cases t <;> simp only [isLoop, Bool.false_eq_true] at loop <;> exact fits

/-- A node that yields what suits its kind. -/
theorem closing_suits {t : Tree} {x : Flow Tape Value} (good : Good offers layout live s)
    (suits : SteadyAt offers layout live s x (Suits t.kind)) :
    Ends ((kernel host).closing t x) s
      (fun v s' => Step offers layout live s s' ∧ Suits t.kind v s')
      fun _ s' => Step offers layout live s s' :=
  closing_ends ((suits.mono fun _ _ _ told => told.tells) good)

theorem SteadyAt.suits {x : Flow Tape Value} {kind : Kind}
    (known : SteadyAt offers layout live s x fun v _ => v.kind? = some kind) :
    SteadyAt offers layout live s x (Suits kind) :=
  known.mono fun _ _ _ told => suits_of_kind told

theorem walks_literal {t : Tree} {v : Value}
    (meaning : t.walk (kernel host) host invoke = (kernel host).closing t (pure v))
    (fits : v.Fits t.kind) (undeclared : t.declares = []) :
    Walks offers layout host invoke live t := by
  intro s good
  rw [meaning, undeclared]
  exact closing_suits good (steadyAt_pure fun _ => fits)

theorem walks_load {b : Binding} (scope : b.InScope offers layout live) :
    Walks offers layout host invoke live (.load b) := by
  intro s good
  rw [walk.eq_def]
  have loaded : SteadyAt offers layout live s ((kernel host).load b)
      fun v _ => v.kind? = some b.kind :=
    touching_steady scope rfl (by simp) fun m has => Eval.stays_load has
  exact closing_suits good loaded.suits

theorem walks_size {b : Binding} (scope : b.InScope offers layout live) :
    Walks offers layout host invoke live (.size b) := by
  intro s good
  rw [walk.eq_def]
  have measured : SteadyAt offers layout live s ((kernel host).size b)
      fun v _ => v.kind? = some .scalar :=
    touching_steady scope rfl (by simp) fun m _ => Eval.stays_size b
  exact closing_suits good measured.suits

theorem indexed_eq {b : Binding} (indexable : b.kind ≠ .scalar) : b.indexed = b.kind := by
  cases kind_eq : b.kind <;> simp_all [Binding.indexed]

theorem walks_element {b : Binding} {index : Tree} (scope : b.InScope offers layout live)
    (indexable : b.kind ≠ .scalar) (walks : Walks offers layout host invoke live index) :
    Walks offers layout host invoke live (.element b index) := by
  intro s good
  rw [walk.eq_def]
  have kind_eq : (Tree.element b index).kind = if b.kind = .string then .string else .scalar := by
    cases kind_eq : b.kind <;> simp_all [Tree.kind]
  have taken : ∀ x s, SteadyAt offers layout live s ((kernel host).element b x)
      fun v _ => v.kind? = some (Tree.element b index).kind := by
    intro x s
    rw [kind_eq]
    exact touching_steady scope (indexed_eq indexable) (by simp)
      fun m _ => Eval.stays_element host.check b x
  exact closing_suits good (walks.steady.bind fun v s' _ _ => (taken v.asScalar s').suits)

theorem walks_slice {b : Binding} {first last : Option Tree} (scope : b.InScope offers layout live)
    (indexable : b.kind ≠ .scalar)
    (firsts : ∀ u ∈ first.toList, Walks offers layout host invoke live u)
    (lasts : ∀ u ∈ last.toList, Walks offers layout host invoke live u) :
    Walks offers layout host invoke live (.slice b first last) := by
  intro s good
  rw [walk.eq_def]
  have kind_eq : (Tree.slice b first last).kind =
      if b.kind = .string then .string else .vector := by
    cases kind_eq : b.kind <;> simp_all [Tree.kind]
  have taken : ∀ x y s, SteadyAt offers layout live s ((kernel host).slice b x y)
      fun v _ => v.kind? = some (Tree.slice b first last).kind := by
    intro x y s
    rw [kind_eq]
    exact touching_steady scope (indexed_eq indexable) (by simp)
      fun m _ => Eval.stays_slice host.check b x y
  exact closing_suits good ((walkIndex_steady firsts).bind fun x s' _ _ =>
    (walkIndex_steady lasts).bind fun y s'' _ _ => (taken x y s'').suits)

theorem walks_apply {op : Operation} {args : List Tree} (takes : op.Takes args)
    (walks : ∀ u ∈ args, Walks offers layout host invoke live u) :
    Walks offers layout host invoke live (.apply op args) := by
  intro s good
  rw [walk.eq_def]
  -- The operation and its node are noted in one go, since a starved operation is answered for
  -- by its node.
  refine ends_bind (ends_bind ((walkList_steady walks good).mono ?_ fun _ _ step => step))
  rintro vs s' ⟨step, aligned, fits⟩
  have sound : ¬ op.Starves args vs → Clean s'.log →
      (op.result vs).Fits (Tree.apply op args).kind :=
    fun fed clean => .inr (Operation.result_kind takes aligned (fits clean) fed)
  have kept : Kept offers (⟨.finish (.apply op args) (op.result vs), s'.machine.locals, s'.frame⟩ ::
      ⟨.apply op args vs, s'.machine.locals, s'.frame⟩ :: s'.log) := step.good.kept.operation sound
  refine ⟨⟨⟨step.good.sits.still fun _ => rfl, kept⟩, ?_⟩, fun clean => ?_⟩
  · exact fun m inside => List.mem_cons_of_mem _ (List.mem_cons_of_mem _ (step.grown inside))
  · have finished := kept.sound clean _ List.mem_cons_self
    exact finished

theorem initial_steady (shape : Shape) {all : Flow Tape (List Value)}
    {first : Value → Flow Tape Value}
    (alls : ∀ s, SteadyAt offers layout live s all fun _ _ => True)
    (firsts : ∀ s absent, SteadyAt offers layout live s (first absent) fun _ _ => True) :
    SteadyAt offers layout live s (Flow.initial shape all first)
      fun v _ => v.kind? = some shape.kind := by
  cases shape with
  | scalar => exact (firsts s _).bind fun _ _ _ _ => steadyAt_pure rfl
  | string => exact (firsts s _).bind fun _ _ _ _ => steadyAt_pure rfl
  | vector length fill =>
      cases fill with
      | zero => exact steadyAt_pure rfl
      | literal => exact (alls s).bind fun _ _ _ _ => steadyAt_pure rfl
      | copy => exact (firsts s _).bind fun _ _ _ _ => steadyAt_pure rfl
      | each =>
          have item : ∀ s, Keeps (Step offers layout live s) (first .null) :=
            Steady.keeps fun s => firsts s .null
          have collected : SteadyAt offers layout live s (Flow.collect (first .null) length #[])
              fun _ _ => True :=
            fun good => (Flow.keeps_collect (item s) length #[] s (Step.refl good)).mono
              (fun _ _ step => ⟨step, trivial⟩) fun _ _ step => step
          exact collected.bind fun _ _ _ _ => steadyAt_pure rfl

theorem yield_fits {shape : Shape} {v : Value} (known : v.kind? = some shape.kind) :
    (shape.yield v).Fits .scalar := by
  cases shape with
  | scalar => exact .inr known
  | string | vector => exact .inl rfl

theorem walks_declare {slot : Nat} {shape : Shape} {parts : List Tree}
    (laid : layout[slot]?.map Slot.kind = some shape.kind)
    (walks : ∀ u ∈ parts, Walks offers layout host invoke live u) :
    Walks offers layout host invoke live (.declare slot shape parts) := by
  intro s good
  rw [walk.eq_def]
  apply closing_ends
  have start : SteadyAt offers layout live s
      (Flow.initial shape (walkList (kernel host) host invoke parts) fun absent =>
        walkFirst (kernel host) host invoke absent parts)
      fun v _ => v.kind? = some shape.kind :=
    initial_steady shape (fun _ => (walkList_steady walks).mono fun _ _ _ _ => trivial)
      fun _ absent => walkFirst_steady absent walks
  refine ends_bind ((start good).mono ?_ fun _ _ step => step)
  rintro v s' ⟨step, known⟩
  have less : live ⊆ [slot] ++ live := List.subset_append_right _ _
  refine ends_bind ((declare_ends step.good laid known).mono (fun _ s'' after => ?_)
    fun _ s'' after => step.trans after)
  refine ends_pure ⟨⟨after.good, List.Subset.trans step.grown after.grown⟩, ?_⟩
  exact Suits.tells fun _ => yield_fits known

theorem call_steady {callee : Callee} {args : List Tree}
    (safe : Safe offers host invoke) (allowed : callee.Allowed offers args)
    (scope : ∀ b ∈ callee.bindings, b.InScope offers layout live ∧ b.writable = true)
    (walks : ∀ u ∈ args, Walks offers layout host invoke live u) :
    SteadyAt offers layout live s
      ((kernel host).call host invoke callee args (walkList (kernel host) host invoke args))
      (Suits .scalar) := by
  have numeric : ∀ native, SteadyAt offers layout live s (do
      (kernel host).numeric native (← walkList (kernel host) host invoke args))
      (Suits .scalar) := by
    intro native
    apply (walkList_steady walks).bind
    intro vs s' _ _
    exact (lift_steady fun _ => Eval.stays_callNumeric host native vs).mono
      fun _ _ _ fits _ => fits
  cases callee with
  | scalar name native => exact numeric native
  | vararg name native => exact numeric native
  | generic name native overload writeback =>
      apply (walkList_steady walks).bind
      intro vs s' _ listed
      exact callGeneric_steady host scope ⟨name, allowed⟩ listed.1 listed.2
  | composed name definition =>
      cases found : host.body? definition with
      | none =>
          simp only [Kernel.call, found]
          exact steadyAt_throw
      | some p =>
          simp only [Kernel.call, found]
          apply (walkList_steady walks).bind
          intro vs s' _ listed
          have called : SteadyAt offers layout live s' (invoke name p (vs.map Value.asScalar))
              fun _ _ => True := by
            refine safe layout live s' name definition p _ ?_ found
            rw [List.length_map, listed.1]
            exact allowed
          exact called.bind fun _ _ _ _ => steadyAt_pure (suits_of_kind rfl)

theorem swap_steady {left right : Target Tree} {lefts rights : Flow Tape (Target Float)}
    (leftScope : left.binding.InScope offers layout live)
    (rightScope : right.binding.InScope offers layout live) (leftReach : left.Open)
    (rightReach : right.Open) (same : left.kind = right.kind)
    (leftLike : ∀ s, SteadyAt offers layout live s lefts fun other _ => left.Like other)
    (rightLike : ∀ s, SteadyAt offers layout live s rights fun other _ => right.Like other) :
    SteadyAt offers layout live s ((kernel host).swap lefts rights) (Suits left.kind) := by
  have reading : ∀ {target : Target Float} (s : Tape), target.binding.InScope offers layout live →
      target.Open → SteadyAt offers layout live s ((kernel host).readTarget target)
        fun v _ => ∀ w, v = some w → w.kind? = some target.kind := by
    intro target s scope reach
    exact touching_steady scope reach.reach_eq (by simp) fun m has =>
      Eval.stays_readTarget host.check has
  have writing : ∀ {target : Target Float} (s : Tape) (v : Value),
      target.binding.InScope offers layout live → target.Open → v.kind? = some target.kind →
        SteadyAt offers layout live s ((kernel host).writeTarget target v) fun _ _ => True := by
    intro target s v scope reach known
    have stored : target.storing v = target.binding.kind := by
      cases target with
      | whole b => simp only [Target.storing, known]; rfl
      | element b index => exact reach.reach_eq
      | range b first last => exact reach.reach_eq
    refine touching_steady scope stored (fun _ => reach.writable) fun m has =>
      (Eval.stays_writeTarget has ?_).writing fun _ _ => trivial
    rintro b rfl
    exact stored
  -- In the order of evaluation: the left target, its value, the right one and its value.
  apply (leftLike s).bind
  intro l s₁ _ likeLeft
  obtain ⟨leftBinding, leftKind, leftOpen⟩ := likeLeft
  rw [← leftBinding] at leftScope
  apply (reading s₁ leftScope (leftOpen leftReach)).bind
  intro a s₂ _ read
  apply (rightLike s₂).bind
  intro r s₃ _ likeRight
  obtain ⟨rightBinding, rightKind, rightOpen⟩ := likeRight
  rw [← rightBinding] at rightScope
  apply (reading s₃ rightScope (rightOpen rightReach)).bind
  intro b s₄ _ read'
  have kinds : l.kind = r.kind := leftKind.trans (same.trans rightKind.symm)
  cases a with
  | none => exact steadyAt_pure fun _ => .inl rfl
  | some a =>
      cases b with
      | none => exact steadyAt_pure fun _ => .inl rfl
      | some b =>
          have known := read a rfl
          have known' := read' b rfl
          refine (writing s₄ b leftScope (leftOpen leftReach) (kinds ▸ known')).bind
            fun _ s₅ _ _ => ?_
          refine (writing s₅ a rightScope (rightOpen rightReach) (kinds ▸ known)).bind
            fun _ s₆ _ _ => steadyAt_pure ?_
          exact suits_of_kind (leftKind ▸ known)

theorem walks_logic {op : Connective} {left right : Tree}
    (lefts : Walks offers layout host invoke live left)
    (rights : Walks offers layout host invoke live right) :
    Walks offers layout host invoke live (.logic op left right) := by
  intro s good
  rw [walk.eq_def]
  have connected := Flow.ends_connect op (lefts.keeps s) (rights.keeps s) s (Step.refl good)
  refine closing_ends (connected.mono ?_ fun _ _ step => step)
  rintro _ s' ⟨⟨x, rfl⟩, step⟩
  exact ⟨step, Suits.tells fun _ => .inr rfl⟩

theorem walks_branch {test yes : Tree} {no : Option Tree}
    (tests : Walks offers layout host invoke live test)
    (yeses : Walks offers layout host invoke live yes)
    (noes : ∀ u ∈ no.toList, Walks offers layout host invoke live u)
    (same : ∀ u ∈ no.toList, u.kind = yes.kind) :
    Walks offers layout host invoke live (.branch test yes no) := by
  intro s good
  rw [walk.eq_def]
  have decided : SteadyAt offers layout live s
      (Flow.truth (test.walk (kernel host) host invoke)) fun _ _ => True :=
    tests.steady.bind fun _ _ _ _ => steadyAt_pure trivial
  have chosen : ∀ holds s, SteadyAt offers layout live s
      (if holds = true then yes.walk (kernel host) host invoke
        else walkOption (kernel host) host invoke no) (Suits yes.kind) := by
    intro holds s
    cases holds with
    | true => exact yeses.steady
    | false => exact walkOption_steady noes same
  exact closing_suits good (decided.bind fun holds s' _ _ => chosen holds s')

theorem walks_switch {cases : List (Tree × Tree)} {default : Option Tree}
    (tests : ∀ c ∈ cases, Walks offers layout host invoke live c.1)
    (bodies : ∀ c ∈ cases, Walks offers layout host invoke live c.2)
    (defaults : ∀ u ∈ default.toList, Walks offers layout host invoke live u)
    (same : ∀ c ∈ cases, c.2.kind = (Tree.switch cases default).kind)
    (sameDefault : ∀ u ∈ default.toList, u.kind = (Tree.switch cases default).kind) :
    Walks offers layout host invoke live (.switch cases default) := by
  intro s good
  rw [walk.eq_def]
  apply closing_suits good
  apply (walkCases_steady tests bodies same).bind
  intro found s' _ suits
  cases found with
  | some v => exact steadyAt_pure (suits v rfl)
  | none => exact walkOption_steady defaults sameDefault

theorem walks_assign {target : Target Tree} {op : AssignOp} {value : Tree}
    (scope : target.binding.InScope offers layout live) (reach : target.Open)
    (indices : ∀ u ∈ target.indices, Walks offers layout host invoke live u)
    (values : Walks offers layout host invoke live value) :
    Walks offers layout host invoke live (.assign target op value) := by
  intro s good
  rw [walk.eq_def]
  have stored : ∀ v (other : Target Float) s, target.Like other →
      SteadyAt offers layout live s ((kernel host).assign other op v)
        fun w _ => w.kind? = some target.kind := by
    rintro v other s ⟨binding_eq, kind_eq, opened⟩
    have open' := opened reach
    rw [← kind_eq]
    exact touching_steady (binding_eq ▸ scope) open'.reach_eq
      (fun _ => open'.writable) fun m has =>
      (Eval.stays_assign host.check has op v).writing fun _ _ => trivial
  exact closing_suits good (values.steady.bind fun v s' _ _ =>
    (walkTarget_steady indices).bind fun other s'' _ like => (stored v other s'' like).suits)

theorem loop_steady {t : Tree} {x : Flow Tape Value} (loop : t.isLoop = true)
    (kept : Keeps (Step offers layout live s) x) :
    SteadyAt offers layout live s x (Tells t) :=
  fun good => (kept s (Step.refl good)).mono (fun v _ step => ⟨step, tells_loop loop v⟩)
    fun _ _ step => step

theorem forLoop_steady {first test step : Option Tree} {body : Tree} (rounds : Nat)
    (firsts : ∀ u ∈ first.toList, Walks offers layout host invoke live u)
    (tests : ∀ u ∈ test.toList,
      Walks offers layout host invoke (first.toList.flatMap declares ++ live) u)
    (steps : ∀ u ∈ step.toList,
      Walks offers layout host invoke (first.toList.flatMap declares ++ live) u)
    (bodies : Walks offers layout host invoke (first.toList.flatMap declares ++ live) body) :
    SteadyAt offers layout live s (do
        Flow.ignore (walkOption (kernel host) host invoke first)
        Flow.loop (walkTest (kernel host) host invoke test)
          (Flow.ignore (walkOption (kernel host) host invoke step))
          (body.walk (kernel host) host invoke) rounds .null)
      (Tells (.forLoop first test step body)) := by
  intro good
  have less : live ⊆ first.toList.flatMap declares ++ live := List.subset_append_right _ _
  refine ends_bind (ends_bind ((walkOption_ends firsts good).mono ?_ fun _ _ step => step))
  rintro _ s' ⟨entered, -⟩
  have stepped : Keeps (Step offers layout (first.toList.flatMap declares ++ live) s')
      (walkOption (kernel host) host invoke step) := by
    cases step with
    | none => exact keeps_pure _
    | some u => exact (steps u (by simp)).keeps s'
  have looped := Flow.keeps_loop (walkTest_keeps tests s') (Flow.keeps_ignore stepped)
    (bodies.keeps s') rounds .null s' (Step.refl entered.good)
  exact looped.mono
    (fun v s'' after => ⟨(entered.fewer less).trans (after.fewer less), tells_loop rfl v⟩)
    fun _ s'' after => (entered.fewer less).trans (after.fewer less)

/-- What is built walks, whatever more is in use. -/
theorem Built.walks {t : Tree} (safe : Safe offers host invoke)
    (built : Built offers layout live t) :
    ∀ live', live ⊆ live' → Walks offers layout host invoke live' t := by
  -- For all slots that may be in use besides, since what stands before a node in a list or in
  -- the head of a loop adds its own.
  induction built <;> intro live' more
  case null => exact walks_literal (by rw [walk.eq_def]) (.inl rfl) rfl
  case number x => exact walks_literal (by rw [walk.eq_def]) (.inr rfl) rfl
  case text x => exact walks_literal (by rw [walk.eq_def]) (.inr rfl) rfl
  case load b scope => exact walks_load (scope.more more)
  case size b scope => exact walks_size (scope.more more)
  case element b index scope indexable inner ih =>
      exact walks_element (scope.more more) indexable (ih live' more)
  case slice b first last scope indexable _ _ firsts lasts =>
      exact walks_slice (scope.more more) indexable
        (fun u inside => firsts u inside live' more) fun u inside => lasts u inside live' more
  case apply op args takes inner ih =>
      exact walks_apply takes fun u inside => ih u inside live' more
  case logic op left right _ _ lefts rights =>
      exact walks_logic (lefts live' more) (rights live' more)
  case call callee args allowed scope inner ih =>
      intro s good
      rw [walk.eq_def]
      exact closing_suits good (call_steady safe allowed
        (fun b inside => ⟨(scope b inside).1.more more, (scope b inside).2⟩)
        fun u inside => ih u inside live' more)
  case branch test yes no tests yeses noes kinds ihTest ihYes ihNo =>
      exact walks_branch (ihTest live' more) (ihYes live' more)
        (fun u inside => ihNo u inside live' more) kinds
  case switch cases default tests bodies defaults kinds defaultKinds ihTest ihBody ihDefault =>
      exact walks_switch (fun c inside => ihTest c inside live' more)
        (fun c inside => ihBody c inside live' more)
        (fun u inside => ihDefault u inside live' more) kinds defaultKinds
  case whileLoop live test body tests bodies ihTest ihBody =>
      intro s good
      rw [walk.eq_def]
      have kept := Flow.keeps_loop (Flow.keeps_truth ((ihTest live' more).keeps s))
        (keeps_pure ()) ((ihBody live' more).keeps s) host.rounds .null
      exact closing_ends (loop_steady (t := .whileLoop test body) rfl kept good)
  case forLoop live first test step body _ _ _ _ ihFirst ihTest ihStep ihBody =>
      intro s good
      rw [walk.eq_def]
      have further := append_subset_append (first.toList.flatMap declares) more
      have looped := forLoop_steady (s := s) host.rounds
        (fun u inside => ihFirst u inside live' more)
        (fun u inside => ihTest u inside _ further) (fun u inside => ihStep u inside _ further)
        (ihBody _ further)
      exact closing_ends (looped good)
  case repeatLoop live body stop bodies stops ihBody ihStop =>
      intro s good
      rw [walk.eq_def]
      have kept := Flow.keeps_loopUntil ((ihBody live' more).keeps s)
        (Flow.keeps_truth ((ihStop live' more).keeps s)) host.rounds .null
      exact closing_ends (loop_steady (t := .repeatLoop body stop) rfl kept good)
  case breakLoop live payload inner ih =>
      intro s good
      rw [walk.eq_def]
      have left := walkIndex_steady (s := s) fun u inside => ih u inside live' more
      exact closing_suits good (left.bind fun _ _ _ _ => steadyAt_throw)
  case continueLoop =>
      intro s good
      rw [walk.eq_def]
      exact closing_suits good steadyAt_throw
  case returnList live items inner ih =>
      intro s good
      rw [walk.eq_def]
      have listed := walkList_steady (s := s) fun u inside => ih u inside live' more
      exact closing_suits good (listed.bind fun _ _ _ _ => steadyAt_throw)
  case sequence live items inner ih =>
      intro s good
      rw [walk.eq_def]
      have walks : ∀ before t after, items = before ++ t :: after →
          ∀ live'', before.flatMap declares ++ live' ⊆ live'' →
            Walks offers layout host invoke live'' t := by
        intro before t after split live'' further
        have wider := append_subset_append (before.flatMap declares) more
        exact ih before t after split live'' (List.Subset.trans wider further)
      exact closing_suits good (walkSequence_steady walks fun _ => .inl rfl)
  case declare slot shape parts laid inner ih =>
      exact walks_declare laid fun u inside => ih u inside live' more
  case assign target op value scope reach indices values ihIndex ihValue =>
      exact walks_assign (scope.more more) reach
        (fun u inside => ihIndex u inside live' more) (ihValue live' more)
  case swap live left right leftScope rightScope leftReach rightReach kinds _ _ ihLeft ihRight =>
      intro s good
      rw [walk.eq_def]
      exact closing_suits good (swap_steady (leftScope.more more)
        (rightScope.more more) leftReach rightReach kinds
        (fun s => walkTarget_steady fun u inside => ihLeft u inside live' more)
        fun s => walkTarget_steady fun u inside => ihRight u inside live' more)

end

/-! ### Invocations and whole evaluations -/

/-- A fresh frame holds the arguments and nothing else. -/
theorem kindAt_frame (p : Program) (args : List Float) (m : Machine) (i : Nat) :
    Machine.kindAt { m with locals := Host.frame p args } i =
      if i < args.length then some (some .scalar)
      else if i < p.frameSize then some none else none := by
  simp only [Machine.kindAt, Host.frame, List.getElem?_toArray]
  -- Arguments first, then the slots of the declarations, which are still empty.
  by_cases argument : i < args.length
  · simp [argument, List.getElem?_append_left, Value.kind?]
  · simp only [argument, if_false]
    rw [List.getElem?_append_right (by simpa using argument)]
    by_cases inside : i < p.frameSize
    · have room : i - args.length < p.frameSize - args.length := by omega
      simp [inside, room, Value.kind?]
    · have outside : ¬ i - args.length < p.frameSize - args.length := by omega
      simp [inside, outside]

theorem into_good {offers : Grant → Prop} {s : Tape} {p : Program} {args : List Float}
    {inner : List Slot} (kept : Kept offers s.log) (size_eq : inner.length = p.frameSize)
    (params : ∀ i < args.length, inner[i]?.map Slot.kind = some .scalar) :
    Good offers inner (List.range args.length) (into p args s) := by
  have held := kindAt_frame p args s.machine
  refine ⟨⟨size_eq.symm, ?_, ?_, ?_⟩, kept⟩
  · intro i
    rw [into, held]
    split
    · next argument =>
        simpa using inside_layout (params i argument)
    · split <;> simp_all
  · intro i kind found
    rw [into, held] at found
    split at found
    · next argument =>
        obtain rfl : Kind.scalar = kind := by simpa using found
        exact ⟨params i argument, by simpa [into] using argument⟩
    · split at found <;> simp at found
  · intro i used
    refine ⟨.scalar, ?_⟩
    rw [into, held]
    simp [List.mem_range.mp used]

theorem enter_steady {offers : Grant → Prop} {host : Host} {invoke : Invoking Tape}
    (honours : host.Honours offers) (safe : Safe offers host invoke) {layout : List Slot}
    {live : List Nat} {s : Tape} {name : String} {n : Nat} {p : Program} {args : List Float}
    (offered : offers (.call name (.composed n args.length))) (found : host.body? n = some p) :
    SteadyAt offers layout live s
      ((kernel host).enter p args (p.tree.walk (kernel host) host invoke)) fun _ _ => True := by
  intro good
  obtain ⟨inner, size_eq, params, -, built⟩ := honours name n args.length p offered found
  have entered := into_good good.kept size_eq params
  have walks := built.walks safe _ (List.Subset.refl _) _ entered
  have body : Ends (p.tree.walk (kernel host) host invoke) (into p args s)
      (fun _ s' => Kept offers s'.log ∧ s.log ⊆ s'.log)
      fun _ s' => Kept offers s'.log ∧ s.log ⊆ s'.log :=
    walks.mono (fun _ _ after => ⟨after.1.good.kept, after.1.grown⟩)
      fun _ _ step => ⟨step.good.kept, step.grown⟩
  -- The caller gets its own slots back, so nothing of the callee's frame matters but its log.
  have returned : Ends ((kernel host).enter p args (p.tree.walk (kernel host) host invoke)) s
      (fun _ => Step offers layout live s) fun _ => Step offers layout live s :=
    Flow.ends_enter body fun s' after =>
      ⟨⟨good.sits.still fun _ => rfl, after.1⟩, after.2⟩
  exact returned.mono (fun _ _ step => ⟨step, trivial⟩) fun _ _ step => step

/-- However deep calls may go, every invocation comes back to a good state. -/
theorem invoke_safe {offers : Grant → Prop} {host : Host} (honours : host.Honours offers)
    (depth : Nat) : Safe offers host ((kernel host).invoke host depth) := by
  -- At depth zero the call is refused; otherwise the body is walked one call deeper.
  induction depth with
  | zero =>
      intro layout live s name n p args _ _
      exact steadyAt_throw
  | succ depth ih =>
      intro layout live s name n p args offered found
      exact enter_steady honours ih offered found

/-- The log of an evaluation of a program built without parameters. -/
theorem Host.log_kept {offers : Grant → Prop} {host : Host} (honours : host.Honours offers)
    {p : Program} (built : p.BuiltFor offers 0) (store : Store) :
    Kept offers (host.log p store) := by
  obtain ⟨layout, size_eq, -, -, built⟩ := built
  have start : Good offers layout [] (blank p store) := by
    have held := kindAt_frame p [] ⟨store, #[], #[]⟩
    refine ⟨⟨size_eq.symm, ?_, ?_, by simp⟩, Kept.nil⟩
    · intro i
      rw [blank, held]
      simp only [List.length_nil, Nat.not_lt_zero, if_false]
      split <;> simp_all
    · intro i kind found
      rw [blank, held] at found
      simp only [List.length_nil, Nat.not_lt_zero, if_false] at found
      split at found <;> simp at found
  have ends := built.walks (invoke_safe honours host.limit) [] (by simp) _ start
  unfold Host.log Host.record
  unfold Ends at ends
  split at ends
  · next end_eq =>
      rw [end_eq]
      exact ends.1.good.kept
  · next end_eq =>
      rw [end_eq]
      exact ends.good.kept

end MathScript
