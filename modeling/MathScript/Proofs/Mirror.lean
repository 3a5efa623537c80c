import MathScript.Proofs.Folding

/-!
Kernels that mirror each other. Their steps agree up to a relation of the states, and the
relation does not notice a literal on the left, nor the reading of a constant, an operation or
a node behind its value on the right. Over such kernels a settled tree on the left and the tree
on the right end alike.
-/

namespace MathScript

variable {σ τ : Type}

/-- A step on the right that yields `a` and keeps the state related to what it was. -/
def Silent {α : Type} (R : σ → τ → Prop) (y : Flow τ α) (a : α) : Prop :=
  ∀ s t, R s t → ∃ t', y t = .ok a t' ∧ R s t'

section

variable {α β : Type} {R : σ → τ → Prop}

theorem silent_pure (a : α) : Silent R (pure a : Flow τ α) a :=
  fun _ t related => ⟨t, rfl, related⟩

theorem silent_bind {y : Flow τ α} {g : α → Flow τ β} {a : α} {b : β} (first : Silent R y a)
    (rest : Silent R (g a) b) : Silent R (y >>= g) b := by
  intro s t related
  obtain ⟨t', first_end, related'⟩ := first s t related
  obtain ⟨t'', rest_end, related''⟩ := rest s t' related'
  exact ⟨t'', by simp [bind, EStateM.bind, first_end, rest_end], related''⟩

/-- A silent step may go in front on the right. -/
theorem Silent.agree {y : Flow τ α} {a : α} {x : Flow σ β} {g : α → Flow τ β}
    (silent : Silent R y a) (rest : Agree R x (g a)) : Agree R x (y >>= g) := by
  intro s t related
  obtain ⟨t', silent_end, related'⟩ := silent s t related
  simpa [bind, EStateM.bind, silent_end] using rest s t' related'

/-- A silent step may go behind on the right. -/
theorem Agree.silent {x : Flow σ α} {y : Flow τ α} {g : α → Flow τ Unit} (same : Agree R x y)
    (silent : ∀ a, Silent R (g a) ()) :
    Agree R x (do
      let a ← y
      g a
      return a) := by
  intro s t related
  -- Only a side that completes gets as far as `g`; a stop passes it by on both sides.
  have same := same s t related
  cases left : x s with
  | ok a s' =>
      cases right : y t with
      | ok b t' =>
          rw [left, right] at same
          obtain ⟨rfl, related'⟩ := same
          obtain ⟨t'', silent_end, related''⟩ := silent a s' t' related'
          simpa [bind, EStateM.bind, pure, EStateM.pure, right, silent_end, SameEnd]
            using related''
      | error e t' => simp [left, right, SameEnd] at same
  | error e s' =>
      cases right : y t with
      | ok b t' => simp [left, right, SameEnd] at same
      | error f t' =>
          rw [left, right] at same
          simpa [bind, EStateM.bind, right, SameEnd] using same

end

/-- One program is the other, or the other folded. -/
def Program.Settles (left right : Program) : Prop :=
  ∃ folding, left.tree = right.tree.settle folding ∧ left.frameSize = right.frameSize

/-- Hosts that differ only in what bodies are folded. -/
structure Host.Settles (left right : Host) : Prop where
  natives : left.natives = right.natives
  check : left.check = right.check
  limit : left.limit = right.limit
  rounds : left.rounds = right.rounds
  body : ∀ n, left.body? n = none ∧ right.body? n = none ∨
    ∃ p q, left.body? n = some p ∧ right.body? n = some q ∧ p.Settles q

open Tree

structure Kernel.Mirrors (A : Kernel σ) (B : Kernel τ) (R : σ → τ → Prop) : Prop where
  load : ∀ b, Agree R (A.load b) (B.load b)
  element : ∀ b x, Agree R (A.element b x) (B.element b x)
  slice : ∀ b x y, Agree R (A.slice b x y) (B.slice b x y)
  size : ∀ b, Agree R (A.size b) (B.size b)
  assign : ∀ t op v, Agree R (A.assign t op v) (B.assign t op v)
  readTarget : ∀ t, Agree R (A.readTarget t) (B.readTarget t)
  writeTarget : ∀ t v, Agree R (A.writeTarget t v) (B.writeTarget t v)
  declare : ∀ slot kind v, Agree R (A.declare slot kind v) (B.declare slot kind v)
  numeric : ∀ native vs, Agree R (A.numeric native vs) (B.numeric native vs)
  generic : ∀ folding native overload writeback args vs,
    Agree R (A.generic native overload writeback (args.map (settle folding)) vs)
      (B.generic native overload writeback args vs)
  enter : ∀ p q args x y, p.frameSize = q.frameSize → Agree R x y →
    Agree R (A.enter p args x) (B.enter q args y)
  applied : ∀ folding op args vs,
    Agree R (A.applied op (args.map (settle folding)) vs) (B.applied op args vs)
  finished : ∀ folding t v, Agree R (A.finished (settle folding t) v) (B.finished t v)
  literal : ∀ x s, ∃ s', A.finished (.number x) (.scalar x) s = .ok () s' ∧
    ∀ t, R s' t → R s t
  constant : ∀ b x, b.place = .constant x → Silent R (B.load b) (.scalar x)
  operation : ∀ op args vs, Silent R (B.applied op args vs) ()
  node : ∀ t v, Silent R (B.finished t v) ()

namespace Kernel.Mirrors

variable {A : Kernel σ} {B : Kernel τ} {R : σ → τ → Prop}

theorem closing (m : A.Mirrors B R) {folding : Bool} {left right : Tree}
    (settled : settle folding right = left) {x : Flow σ Value} {y : Flow τ Value}
    (same : Agree R x y) : Agree R (A.closing left x) (B.closing right y) := by
  subst settled
  exact agree_bind same fun v => agree_bind (m.finished folding right v) fun _ => agree_pure v

/-- A node on the right may have lost its left counterpart. -/
theorem closing_right (m : A.Mirrors B R) (t : Tree) {x : Flow σ Value} {y : Flow τ Value}
    (same : Agree R x y) : Agree R x (B.closing t y) :=
  same.silent fun v => m.node t v

variable {host host' : Host} {invoke : Invoking σ} {invoke' : Invoking τ}

theorem walk_number (k : Kernel σ) (host : Host) (invoke : Invoking σ) (x : Float) :
    (Tree.number x).walk k host invoke = k.closing (.number x) (pure (.scalar x)) := by
  rw [walk.eq_def]

/-- What agrees with a literal is silent. -/
theorem silent_of_literal (m : A.Mirrors B R) {x : Float} {y : Flow τ Value}
    (same : Agree R ((Tree.number x).walk A host invoke) y) : Silent R y (.scalar x) := by
  intro s t related
  -- The literal tells its kernel that it is finished, which the relation has to forget.
  obtain ⟨s', finished_end, forgotten⟩ := m.literal x s
  have left : (Tree.number x).walk A host invoke s = .ok (.scalar x) s' := by
    rw [walk_number]
    simp [Kernel.closing, bind, EStateM.bind, finished_end, pure, EStateM.pure]
  have same := same s t related
  cases right : y t with
  | ok v t' =>
      rw [left, right] at same
      exact ⟨t', by rw [same.1], forgotten t' same.2⟩
  | error e t' => simp [left, right, SameEnd] at same

/-- The other way round, a silent step agrees with a literal. -/
theorem agree_literal (m : A.Mirrors B R) {t : Tree} {folding : Bool} {x : Float}
    (settled : settle folding t = .number x) {y : Flow τ Value} (silent : Silent R y (.scalar x)) :
    Agree R ((Tree.number x).walk A host invoke) (B.closing t y) := by
  rw [walk_number]
  apply m.closing settled
  intro s t related
  obtain ⟨t', silent_end, related'⟩ := silent s t related
  simpa [pure, EStateM.pure, silent_end, SameEnd] using related'

/-- Settled trees on the left end as their trees on the right. -/
def Alike (A : Kernel σ) (B : Kernel τ) (R : σ → τ → Prop) (host host' : Host)
    (invoke : Invoking σ) (invoke' : Invoking τ) (t : Tree) : Prop :=
  ∀ folding, Agree R ((settle folding t).walk A host invoke) (t.walk B host' invoke')

section

variable (folding : Bool)

theorem walkOption_alike {t : Option Tree}
    (alike : ∀ u ∈ t.toList, Alike A B R host host' invoke invoke' u) :
    Agree R (walkOption A host invoke (t.map (settle folding)))
      (walkOption B host' invoke' t) := by
  cases t with
  | none => exact agree_pure _
  | some u => exact alike u (by simp) folding

theorem walkIndex_alike {t : Option Tree}
    (alike : ∀ u ∈ t.toList, Alike A B R host host' invoke invoke' u) :
    Agree R (walkIndex A host invoke (t.map (settle folding)))
      (walkIndex B host' invoke' t) := by
  cases t with
  | none => exact agree_pure none
  | some u => exact agree_bind (alike u (by simp) folding) fun v => agree_pure _

theorem walkTest_alike {t : Option Tree}
    (alike : ∀ u ∈ t.toList, Alike A B R host host' invoke invoke' u) :
    Agree R (walkTest A host invoke (t.map (settle folding)))
      (walkTest B host' invoke' t) := by
  cases t with
  | none => exact agree_pure true
  | some u => exact Flow.agree_truth (alike u (by simp) folding)

theorem walkList_alike {ts : List Tree}
    (alike : ∀ u ∈ ts, Alike A B R host host' invoke invoke' u) :
    Agree R (walkList A host invoke (ts.map (settle folding)))
      (walkList B host' invoke' ts) := by
  induction ts with
  | nil => exact agree_pure []
  | cons t ts ih =>
      have tails := ih fun u inside => alike u (List.mem_cons_of_mem t inside)
      exact agree_bind (alike t (by simp) folding) fun v =>
        agree_bind tails fun vs => agree_pure (v :: vs)

theorem walkFirst_alike (absent : Value) {ts : List Tree}
    (alike : ∀ u ∈ ts, Alike A B R host host' invoke invoke' u) :
    Agree R (walkFirst A host invoke absent (ts.map (settle folding)))
      (walkFirst B host' invoke' absent ts) := by
  cases ts with
  | nil => exact agree_pure absent
  | cons t ts => exact alike t (by simp) folding

theorem walkSequence_alike (last : Value) {ts : List Tree}
    (alike : ∀ u ∈ ts, Alike A B R host host' invoke invoke' u) :
    Agree R (walkSequence A host invoke last (ts.map (settle folding)))
      (walkSequence B host' invoke' last ts) := by
  induction ts generalizing last with
  | nil => exact agree_pure last
  | cons t ts ih =>
      exact agree_bind (alike t (by simp) folding) fun v =>
        ih v fun u inside => alike u (List.mem_cons_of_mem t inside)

theorem walkCases_alike {cases : List (Tree × Tree)}
    (alike : ∀ u ∈ cases.flatMap fun (test, body) => [test, body],
      Alike A B R host host' invoke invoke' u) :
    Agree R (walkCases A host invoke (cases.map (Prod.map (settle folding) (settle folding))))
      (walkCases B host' invoke' cases) := by
  induction cases with
  | nil => exact agree_pure none
  | cons c cases ih =>
      obtain ⟨test, body⟩ := c
      simp only [List.flatMap_cons, List.mem_append] at alike
      apply agree_bind (Flow.agree_truth (alike test (by simp) folding))
      intro holds
      cases holds with
      | true => exact agree_bind (alike body (by simp) folding) fun v => agree_pure (some v)
      | false => exact ih fun u inside => alike u (.inr inside)

theorem walkTarget_alike {target : Target Tree}
    (alike : ∀ u ∈ target.indices, Alike A B R host host' invoke invoke' u) :
    Agree R (walkTarget A host invoke (target.map (settle folding)))
      (walkTarget B host' invoke' target) := by
  cases target with
  | whole b => exact agree_pure _
  | element b index =>
      exact agree_bind (alike index (by simp [Target.indices]) folding) fun v => agree_pure _
  | range b first last =>
      simp only [Target.indices, List.mem_append] at alike
      exact agree_bind (walkIndex_alike folding fun u inside => alike u (.inl inside))
        fun x => agree_bind (walkIndex_alike folding fun u inside => alike u (.inr inside))
          fun y => agree_pure _

end

theorem initial_alike (shape : Shape) {all : Flow σ (List Value)} {all' : Flow τ (List Value)}
    {first : Value → Flow σ Value} {first' : Value → Flow τ Value} (lists : Agree R all all')
    (firsts : ∀ absent, Agree R (first absent) (first' absent)) :
    Agree R (Flow.initial shape all first) (Flow.initial shape all' first') := by
  cases shape with
  | scalar => exact agree_bind (firsts _) fun v => agree_pure _
  | string => exact agree_bind (firsts _) fun v => agree_pure _
  | vector length fill =>
      cases fill with
      | zero => exact agree_pure _
      | literal => exact agree_bind lists fun vs => agree_pure _
      | each =>
          exact agree_bind (Flow.agree_collect (firsts _) length #[]) fun xs => agree_pure _
      | copy => exact agree_bind (firsts _) fun v => agree_pure _

theorem swap_alike (m : A.Mirrors B R) {left right : Flow σ (Target Float)}
    {left' right' : Flow τ (Target Float)} (lefts : Agree R left left')
    (rights : Agree R right right') : Agree R (A.swap left right) (B.swap left' right') := by
  refine agree_bind lefts fun l => agree_bind (m.readTarget l) fun a =>
    agree_bind rights fun r => agree_bind (m.readTarget r) fun b => ?_
  cases a with
  | none => exact agree_pure _
  | some a =>
      cases b with
      | none => exact agree_pure _
      | some b =>
          exact agree_bind (m.writeTarget l b) fun _ =>
            agree_bind (m.writeTarget r a) fun _ => agree_pure a

theorem call_alike (m : A.Mirrors B R) (hosts : host.Settles host')
    (invokes : ∀ name p q args, p.Settles q →
      Agree R (invoke name p args) (invoke' name q args))
    (folding : Bool) (callee : Callee) (args : List Tree) {values : Flow σ (List Value)}
    {values' : Flow τ (List Value)} (same : Agree R values values') :
    Agree R (A.call host invoke callee (args.map (settle folding)) values)
      (B.call host' invoke' callee args values') := by
  cases callee with
  | scalar name native => exact agree_bind same fun vs => m.numeric native vs
  | vararg name native => exact agree_bind same fun vs => m.numeric native vs
  | generic name native overload writeback =>
      exact agree_bind same fun vs => m.generic folding native overload writeback args vs
  | composed name definition =>
      -- Either both hosts find a body or neither does; the bodies then run alike by `invokes`.
      rcases hosts.body definition with ⟨gone, gone'⟩ | ⟨p, q, there, there', settled⟩
      · simp only [Kernel.call, gone, gone']
        exact agree_throw _
      · simp only [Kernel.call, there, there']
        exact agree_bind same fun vs =>
          agree_bind (invokes name p q _ settled) fun x => agree_pure _

/-! ### The nodes that folding removes -/

theorem silent_list (m : A.Mirrors B R) {ts : List Tree} {xs : List Float}
    (alike : ∀ u ∈ ts, Alike A B R host host' invoke invoke' u)
    (literal : literals? (ts.map fold) = some xs) :
    Silent R (walkList B host' invoke' ts) (xs.map Value.scalar) := by
  -- The folded items are literals, so each of the items is silent and yields its literal.
  induction ts generalizing xs with
  | nil =>
      obtain rfl : [] = xs := by simpa [literals?] using literal
      exact silent_pure []
  | cons t ts ih =>
      simp only [List.map_cons, literals?] at literal
      split at literal
      · next x ys first rest =>
          obtain rfl : x :: ys = xs := by simpa using literal
          have same := alike t (by simp) true
          rw [settle_true, fold_number first] at same
          exact silent_bind (m.silent_of_literal same)
            (silent_bind (ih (fun u inside => alike u (List.mem_cons_of_mem t inside)) rest)
              (silent_pure _))
      · simp at literal

theorem result_numeric {op : Operation} (numeric : op.isNumeric = true) (xs : List Float) :
    ∃ y, op.result (xs.map .scalar) = .scalar y := by
  cases op <;> simp only [Operation.isNumeric, Bool.false_eq_true] at numeric
  case negate | unary =>
      match xs with
      | [] => exact ⟨_, rfl⟩
      | [x] => exact ⟨_, rfl⟩
      | _ :: _ :: _ => exact ⟨_, rfl⟩
  all_goals
    unfold Operation.result
    split <;> first | exact ⟨_, rfl⟩ | contradiction

theorem alike_load (m : A.Mirrors B R) (b : Binding) :
    Alike A B R host host' invoke invoke' (.load b) := by
  intro folding
  rcases settle_load folding b with kept | ⟨x, constant, settled⟩
  · rw [kept, walk.eq_def, walk.eq_def]
    exact m.closing kept (m.load b)
  · rw [settled, walk.eq_def B]
    exact m.agree_literal settled (m.constant b x constant)

theorem alike_apply (m : A.Mirrors B R) (op : Operation) {args : List Tree}
    (alike : ∀ u ∈ args, Alike A B R host host' invoke invoke' u) :
    Alike A B R host host' invoke invoke' (.apply op args) := by
  intro folding
  rcases settle_apply folding op args with kept | ⟨rfl, numeric, xs, literal, settled⟩
  · rw [kept, walk.eq_def, walk.eq_def B]
    exact m.closing kept (agree_bind (walkList_alike folding alike) fun vs =>
      agree_bind (m.applied folding op args vs) fun _ => agree_pure _)
  -- Folded: what the literal says is what the operation yields, and nothing else was done.
  · obtain ⟨y, result_eq⟩ := result_numeric numeric xs
    rw [settled, walk.eq_def B]
    apply m.agree_literal settled
    rw [result_eq]
    refine silent_bind (m.silent_list alike literal) (silent_bind (m.operation op args _) ?_)
    rw [result_eq]
    exact silent_pure _

theorem alike_logic (m : A.Mirrors B R) (op : Connective) {left right : Tree}
    (lefts : Alike A B R host host' invoke invoke' left)
    (rights : Alike A B R host host' invoke invoke' right) :
    Alike A B R host host' invoke invoke' (.logic op left right) := by
  intro folding
  rcases settle_logic folding op left right with kept | ⟨rfl, x, y, first, second, settled⟩
  · rw [kept, walk.eq_def, walk.eq_def B]
    exact m.closing kept (Flow.agree_connect op (lefts folding) (rights folding))
  · have lefts := lefts true
    have rights := rights true
    rw [settle_true, first] at lefts
    rw [settle_true, second] at rights
    rw [settled, walk.eq_def B]
    apply m.agree_literal settled
    -- The right side is passed or not, as the left one decides; the result is the same.
    cases op <;> cases holds : isTrue x
    all_goals
      apply silent_bind (m.silent_of_literal lefts)
      simp only [Value.isTrue, Value.asScalar, holds, Connective.op, Op.apply, Bool.true_and,
        Bool.false_and, Bool.true_or, Bool.false_or]
    · exact silent_pure _
    · exact silent_bind (m.silent_of_literal rights) (silent_pure _)
    · exact silent_bind (m.silent_of_literal rights) (silent_pure _)
    · exact silent_pure _

theorem alike_branch (m : A.Mirrors B R) {test yes : Tree} {no : Option Tree}
    (tests : Alike A B R host host' invoke invoke' test)
    (yeses : Alike A B R host host' invoke invoke' yes)
    (noes : ∀ u ∈ no.toList, Alike A B R host host' invoke invoke' u) :
    Alike A B R host host' invoke invoke' (.branch test yes no) := by
  intro folding
  rcases settle_branch folding test yes no with kept | ⟨rfl, x, literal, settled⟩
  · rw [kept, walk.eq_def, walk.eq_def B]
    refine m.closing kept (agree_bind (Flow.agree_truth (tests folding)) fun holds => ?_)
    cases holds with
    | true => exact yeses folding
    | false => exact walkOption_alike folding noes
  · have tests := tests true
    rw [settle_true, literal] at tests
    have decided : Silent R (Flow.truth (test.walk B host' invoke')) (isTrue x) :=
      silent_bind (m.silent_of_literal tests) (silent_pure _)
    rw [settled, walk.eq_def B]
    cases holds : isTrue x with
    | true =>
        rw [holds] at decided
        exact m.closing_right _ (decided.agree (yeses true))
    | false =>
        rw [holds] at decided
        cases no with
        | some u => exact m.closing_right _ (decided.agree (noes u (by simp) true))
        | none =>
            -- Here the left side is a null of its own, told as what the branch folds to.
            have null : settle true (.branch test yes none) = .null := by simp [settled, holds]
            rw [walk.eq_def]
            exact m.closing null (decided.agree (agree_pure _))

/-- Over kernels that mirror each other a settled tree ends as the tree. -/
theorem walk_alike (m : A.Mirrors B R) (hosts : host.Settles host')
    (invokes : ∀ name p q args, p.Settles q →
      Agree R (invoke name p args) (invoke' name q args))
    (t : Tree) : Alike A B R host host' invoke invoke' t := by
  induction t using children_induction with
  | step t ih =>
      -- The four kinds of nodes that may fold away are settled above; all others stay nodes of
      -- their kind with settled parts.
      cases t <;> simp only [children, List.mem_append, List.mem_cons, List.not_mem_nil,
        or_false, forall_eq, or_imp, forall_and] at ih
      case load b => exact m.alike_load b
      case apply op args => exact m.alike_apply op ih
      case logic op left right => exact m.alike_logic op ih.1 ih.2
      case branch test yes no => exact m.alike_branch ih.1 ih.2.1 ih.2.2
      all_goals intro folding
      case null =>
          have kept : settle folding .null = .null := settle_of_fold folding rfl
          rw [kept, walk.eq_def, walk.eq_def B]
          exact m.closing kept (agree_pure _)
      case number x =>
          have kept : settle folding (.number x) = .number x := settle_of_fold folding rfl
          rw [kept, walk.eq_def, walk.eq_def B]
          exact m.closing kept (agree_pure _)
      case text s =>
          have kept : settle folding (.text s) = .text s := settle_of_fold folding rfl
          rw [kept, walk.eq_def, walk.eq_def B]
          exact m.closing kept (agree_pure _)
      case size b =>
          have kept : settle folding (.size b) = .size b := settle_of_fold folding rfl
          rw [kept, walk.eq_def, walk.eq_def B]
          exact m.closing kept (m.size b)
      case continueLoop =>
          have kept : settle folding .continueLoop = .continueLoop := settle_of_fold folding rfl
          rw [kept, walk.eq_def, walk.eq_def B]
          exact m.closing kept (agree_throw _)
      case element b index =>
          have kept := settle_element folding b index
          rw [kept, walk.eq_def, walk.eq_def B]
          exact m.closing kept (agree_bind (ih folding) fun v => m.element b _)
      case slice b first last =>
          have kept := settle_slice folding b first last
          rw [kept, walk.eq_def, walk.eq_def B]
          exact m.closing kept (agree_bind (walkIndex_alike folding ih.1) fun x =>
            agree_bind (walkIndex_alike folding ih.2) fun y => m.slice b x y)
      case call callee args =>
          have kept := settle_call folding callee args
          rw [kept, walk.eq_def, walk.eq_def B]
          exact m.closing kept
            (m.call_alike hosts invokes folding callee args (walkList_alike folding ih))
      case switch cases default =>
          have kept := settle_switch folding cases default
          rw [kept, walk.eq_def, walk.eq_def B]
          refine m.closing kept (agree_bind (walkCases_alike folding ih.1) fun v => ?_)
          cases v with
          | some v => exact agree_pure v
          | none => exact walkOption_alike folding ih.2
      case whileLoop test body =>
          have kept := settle_whileLoop folding test body
          rw [kept, walk.eq_def, walk.eq_def B, hosts.rounds]
          exact m.closing kept (Flow.agree_loop (Flow.agree_truth (ih.1 folding)) (agree_pure ())
            (ih.2 folding) _ _)
      case forLoop first test step body =>
          obtain ⟨⟨⟨firsts, tests⟩, steps⟩, bodies⟩ := ih
          have kept := settle_forLoop folding first test step body
          rw [kept, walk.eq_def, walk.eq_def B, hosts.rounds]
          exact m.closing kept (agree_bind (Flow.agree_ignore (walkOption_alike folding firsts))
            fun _ => Flow.agree_loop (walkTest_alike folding tests)
              (Flow.agree_ignore (walkOption_alike folding steps)) (bodies folding) _ _)
      case repeatLoop body stop =>
          have kept := settle_repeatLoop folding body stop
          rw [kept, walk.eq_def, walk.eq_def B, hosts.rounds]
          exact m.closing kept (Flow.agree_loopUntil (ih.1 folding)
            (Flow.agree_truth (ih.2 folding)) _ _)
      case breakLoop payload =>
          have kept := settle_breakLoop folding payload
          rw [kept, walk.eq_def, walk.eq_def B]
          exact m.closing kept (agree_bind (walkIndex_alike folding ih) fun x => agree_throw _)
      case returnList items =>
          have kept := settle_returnList folding items
          rw [kept, walk.eq_def, walk.eq_def B]
          exact m.closing kept (agree_bind (walkList_alike folding ih) fun vs => agree_throw _)
      case sequence items =>
          have kept := settle_sequence folding items
          rw [kept, walk.eq_def, walk.eq_def B]
          exact m.closing kept (walkSequence_alike folding .null ih)
      case declare slot shape parts =>
          have kept := settle_declare folding slot shape parts
          rw [kept, walk.eq_def, walk.eq_def B]
          exact m.closing kept (agree_bind (initial_alike shape (walkList_alike folding ih)
            fun absent => walkFirst_alike folding absent ih) fun v =>
              agree_bind (m.declare slot shape.kind v) fun _ => agree_pure _)
      case assign target op value =>
          have kept := settle_assign folding target op value
          rw [kept, walk.eq_def, walk.eq_def B]
          exact m.closing kept (agree_bind (ih.2 folding) fun v =>
            agree_bind (walkTarget_alike folding ih.1) fun t => m.assign t op v)
      case swap left right =>
          have kept := settle_swap folding left right
          rw [kept, walk.eq_def, walk.eq_def B]
          exact m.closing kept (m.swap_alike (walkTarget_alike folding ih.1)
            (walkTarget_alike folding ih.2))

/-- Invocations of a body, folded or not, end alike. -/
theorem invoke_alike (m : A.Mirrors B R) (hosts : host.Settles host') (depth : Nat)
    (name : String) {p q : Program} (args : List Float) (settled : p.Settles q) :
    Agree R (A.invoke host depth name p args) (B.invoke host' depth name q args) := by
  induction depth generalizing name p q args with
  | zero =>
      simp only [Kernel.invoke, hosts.limit]
      exact agree_throw _
  | succ depth ih =>
      -- The body is walked with the invocations one call less deep.
      obtain ⟨folding, tree_eq, size_eq⟩ := settled
      simp only [Kernel.invoke, tree_eq]
      exact m.enter p q args _ _ size_eq
        (m.walk_alike hosts (fun name p q args settled => ih name args settled) q.tree folding)

end Kernel.Mirrors

end MathScript
