import Mathlib.Algebra.GroupWithZero.Nat
import MathScript.Proofs.Diary

/-!
Programs without loops. Nodes that are evaluated to their end, and bodies that are entered, are
counted beside the machine. An evaluation that comes to no loop counts no more than can be told
from its trees and from the number of calls it has to go, in whatever way functions call each
other; so it ends with a value or with a fault, and no allowance of rounds has a part in it.
-/

namespace MathScript

/-! ### Trees without loops, and what they cost -/

/-- How often an initial value is evaluated: once, or for each element of a vector. -/
def Shape.repeats : Shape → Nat
  | .vector length .each => length
  | _ => 1

namespace Tree

/-- No node is a loop. -/
def LoopFree (t : Tree) : Prop := ∀ node ∈ t.nodes, node.body? = none

/-- The trees an evaluation may come to: its own, and the bodies of functions that are called. -/
inductive Reaches (body? : Nat → Option Program) (root : Tree) : Tree → Prop
  | root : Reaches body? root root
  | body {t : Tree} {n : Nat} {p : Program} (within : Reaches body? root t) (called : t.Calls n)
      (found : body? n = some p) : Reaches body? root p.tree

/-- How often the trees below a node are evaluated at most. -/
def repeats : Tree → Nat
  | .declare _ shape _ => shape.repeats
  | _ => 1

/-- What the evaluation of a tree without loops costs at most, given what calls cost. -/
def cost (call : Nat → Nat) (t : Tree) : Nat :=
  t.repeats * (t.children.attach.map fun ⟨child, member⟩ =>
    have := sizeOf_lt_of_mem_children member
    child.cost call).sum + (t.calls.map call).sum + 1
termination_by sizeOf t

theorem cost_eq (call : Nat → Nat) (t : Tree) :
    t.cost call =
      t.repeats * (t.children.map fun child => child.cost call).sum + (t.calls.map call).sum + 1 := by
  rw [cost]
  congr 4
  simp

end Tree

/-- What a call costs at most with so many calls to go. A call that is refused costs nothing. -/
def callCost (body? : Nat → Option Program) : Nat → Nat → Nat
  | 0, _ => 0
  | depth + 1, n => ((body? n).map fun p => p.tree.cost (callCost body? depth) + 1).getD 0

/-! ### Counting -/

namespace Host

def tallyActs (host : Host) : Acts (Beside Nat) := Beside.acts host

/-- Nodes are counted behind their evaluation, bodies as they are entered. -/
def tally (host : Host) : Kernel (Beside Nat) :=
  { host.tallyActs.kernel (Beside.enter (fun n => n + 1) fun _ n => n) with
    finished := fun _ _ => Beside.note fun _ n => n + 1 }

/-- An evaluation from the top, with a count. -/
def tallied (host : Host) (program : Program) (store : Store) :
    EStateM.Result Signal (Beside Nat) Value :=
  host.tally.run host program ⟨start program store, 0⟩

end Host

/-! ### Spending -/

/-- However `x` ends, it notes at most `c` more; and it is no loop that ends it. -/
def Spends (c : Nat) {α : Type} (x : Flow (Beside Nat) α) : Prop :=
  ∀ s, Ends x s (fun _ s' => s'.notes ≤ s.notes + c) fun e s' =>
    e ≠ .tired ∧ s'.notes ≤ s.notes + c

namespace Spends

variable {α β : Type} {a b c : Nat} {x : Flow (Beside Nat) α} {f : α → Flow (Beside Nat) β}

theorem mono (spends : Spends a x) (fits : a ≤ c) : Spends c x :=
  fun s => (spends s).mono (fun _ _ noted => by omega) fun _ _ stopped => ⟨stopped.1, by omega⟩

theorem pure (v : α) : Spends c (pure v) := fun _ => ends_pure (by omega)

theorem throw {e : Signal} (other : e ≠ .tired) : Spends c (throw e : Flow (Beside Nat) α) :=
  fun _ => ends_throw ⟨other, by omega⟩

theorem bind (first : Spends a x) (rest : ∀ v, Spends b (f v)) : Spends (a + b) (x >>= f) := by
  intro s
  refine ends_bind ((first s).mono (fun v s' noted => ?_) fun e s' stopped => ⟨stopped.1, by omega⟩)
  exact (rest v s').mono (fun _ _ noted' => by omega) fun _ _ stopped => ⟨stopped.1, by omega⟩

/-- What comes behind for nothing. -/
theorem free (first : Spends a x) (rest : ∀ v, Spends 0 (f v)) : Spends a (x >>= f) :=
  first.bind rest

/-- What comes ahead for nothing. -/
theorem ahead (first : Spends 0 x) (rest : ∀ v, Spends a (f v)) : Spends a (x >>= f) :=
  (first.bind rest).mono (by omega)

theorem stepwise : Stepwise fun {α} (x : Flow (Beside Nat) α) (_ : Flow (Beside Nat) α) =>
    Spends 0 x where
  done := pure
  bind first rest := first.bind rest

/-- A step of the machine notes nothing, and stops for nothing but a fault. -/
theorem lift {host : Host} {x : Eval α} (raises : host.Raises x) : Spends 0 (Beside.lift x) := by
  intro s
  have raised := raises s.machine
  unfold Ends at *
  unfold Beside.lift
  cases end_eq : x s.machine with
  | ok v m => exact Nat.le_refl _
  | error e m =>
      rw [end_eq] at raised
      obtain ⟨f, rfl, -⟩ := raised
      exact ⟨by simp, Nat.le_refl _⟩

theorem note : Spends 1 (Beside.note fun _ n => n + 1) := fun _ => ends_modify (Nat.le_refl _)

/-- A body that is entered is counted, and nothing but a fault leaves it. -/
theorem enter {body : Flow (Beside Nat) Value} (spends : Spends c body) (p : Program)
    (args : List Float) :
    Spends (c + 1) (Beside.enter (fun n => n + 1) (fun _ n => n) p args body) := by
  intro s
  have after := spends ⟨{ s.machine with locals := Host.frame p args }, s.notes + 1⟩
  unfold Ends at *
  unfold Beside.enter Flow.enter
  dsimp only at after ⊢
  cases end_eq : body ⟨{ s.machine with locals := Host.frame p args }, s.notes + 1⟩ with
  | ok v s' =>
      rw [end_eq] at after
      dsimp only at after ⊢
      omega
  | error e s' =>
      rw [end_eq] at after
      obtain ⟨other, noted⟩ := after
      -- A return, and a break or a next that has got this far, end with the body.
      cases e <;> dsimp only at noted ⊢
      case fault f => exact ⟨by simp, by omega⟩
      case tired => exact absurd rfl other
      all_goals omega

/-! ### Pieces of control -/

theorem truth {v : Flow (Beside Nat) Value} (spends : Spends c v) : Spends c (Flow.truth v) :=
  spends.free fun _ => pure _

theorem connect (op : Connective) {left right : Flow (Beside Nat) Value} (lefts : Spends a left)
    (rights : Spends b right) : Spends (a + b) (Flow.connect op left right) := by
  refine lefts.bind fun v => ?_
  cases op <;> cases v.isTrue
  · exact pure _
  · exact rights.free fun _ => pure _
  · exact rights.free fun _ => pure _
  · exact pure _

theorem collect {item : Flow (Beside Nat) Value} (spends : Spends c item) (count : Nat)
    (xs : Array Float) : Spends (count * c) (Flow.collect item count xs) := by
  induction count generalizing xs with
  | zero => exact pure xs
  | succ count ih => exact (spends.bind fun v => ih _).mono (by rw [Nat.succ_mul]; omega)

theorem initial (shape : Shape) {all : Flow (Beside Nat) (List Value)}
    {first : Value → Flow (Beside Nat) Value} (lists : Spends c all)
    (firsts : ∀ absent, Spends c (first absent)) :
    Spends (shape.repeats * c) (Flow.initial shape all first) := by
  cases shape with
  | scalar => exact ((firsts _).free fun _ => pure _).mono (by simp [Shape.repeats])
  | string => exact ((firsts _).free fun _ => pure _).mono (by simp [Shape.repeats])
  | vector length fill =>
      cases fill with
      | zero => exact pure _
      | literal => exact (lists.free fun _ => pure _).mono (by simp [Shape.repeats])
      | each => exact ((firsts _).collect length #[]).free fun _ => pure _
      | copy => exact ((firsts _).free fun _ => pure _).mono (by simp [Shape.repeats])

/-! ### Walks -/

section

open Tree Kernel

variable {k : Kernel (Beside Nat)} {host : Host} {invoke : Invoking (Beside Nat)}
  {price : Tree → Nat}

theorem walkOption {t : Option Tree}
    (below : ∀ u ∈ t.toList, Spends (price u) (u.walk k host invoke)) :
    Spends (t.toList.map price).sum (walkOption k host invoke t) := by
  cases t with
  | none => exact pure _
  | some u => exact (below u (by simp)).mono (by simp)

theorem walkIndex {t : Option Tree}
    (below : ∀ u ∈ t.toList, Spends (price u) (u.walk k host invoke)) :
    Spends (t.toList.map price).sum (walkIndex k host invoke t) := by
  cases t with
  | none => exact pure _
  | some u => exact ((below u (by simp)).free fun _ => pure _).mono (by simp)

theorem walkList {ts : List Tree}
    (below : ∀ u ∈ ts, Spends (price u) (u.walk k host invoke)) :
    Spends (ts.map price).sum (walkList k host invoke ts) := by
  induction ts with
  | nil => exact pure _
  | cons t ts ih =>
      rw [List.forall_mem_cons] at below
      exact below.1.bind fun v => (ih below.2).free fun vs => pure _

theorem walkFirst (absent : Value) {ts : List Tree}
    (below : ∀ u ∈ ts, Spends (price u) (u.walk k host invoke)) :
    Spends (ts.map price).sum (walkFirst k host invoke absent ts) := by
  cases ts with
  | nil => exact pure _
  | cons t ts => exact (below t (by simp)).mono (by simp)

theorem walkSequence (last : Value) {ts : List Tree}
    (below : ∀ u ∈ ts, Spends (price u) (u.walk k host invoke)) :
    Spends (ts.map price).sum (walkSequence k host invoke last ts) := by
  induction ts generalizing last with
  | nil => exact pure _
  | cons t ts ih =>
      rw [List.forall_mem_cons] at below
      exact below.1.bind fun v => ih v below.2

theorem walkCases {cases : List (Tree × Tree)}
    (below : ∀ u ∈ cases.flatMap fun (test, body) => [test, body],
      Spends (price u) (u.walk k host invoke)) :
    Spends ((cases.flatMap fun (test, body) => [test, body]).map price).sum
      (walkCases k host invoke cases) := by
  induction cases with
  | nil => exact pure _
  | cons c cases ih =>
      obtain ⟨test, body⟩ := c
      simp only [List.flatMap_cons, List.mem_append] at below
      have later := ih fun u inside => below u (.inr inside)
      refine (((below test (by simp)).truth).bind (b := price body +
        ((cases.flatMap fun (test, body) => [test, body]).map price).sum) fun holds => ?_).mono ?_
      · cases holds with
        | true => exact ((below body (by simp)).free fun v => pure _).mono (Nat.le_add_right _ _)
        | false => exact later.mono (Nat.le_add_left _ _)
      · simp

theorem walkTarget {target : Target Tree}
    (below : ∀ u ∈ target.indices, Spends (price u) (u.walk k host invoke)) :
    Spends (target.indices.map price).sum (walkTarget k host invoke target) := by
  cases target with
  | whole b => exact pure _
  | element b index =>
      exact ((below index (by simp [Target.indices])).free fun v => pure _).mono
        (by simp [Target.indices])
  | range b first last =>
      simp only [Target.indices, List.mem_append] at below
      have firsts := walkIndex fun u inside => below u (.inl inside)
      have lasts := walkIndex fun u inside => below u (.inr inside)
      refine (firsts.bind fun x => lasts.free fun y => pure _).mono ?_
      simp [Target.indices]

end

/-! ### Nodes -/

section

open Tree Kernel

variable {host : Host} {invoke : Invoking (Beside Nat)} {call : Nat → Nat}

theorem acts (host : Host) : host.tallyActs.InStep host.tallyActs
    (fun {α} (x : Flow (Beside Nat) α) _ => Spends 0 x) (fun _ => True) fun _ => True :=
  Acts.through_raises host fun _ raises => lift raises

theorem calling {callee : Callee} {args : List Tree} {values : Flow (Beside Nat) (List Value)}
    (spends : Spends c values)
    (invokes : ∀ n ∈ callee.definitions, ∀ p, host.body? n = some p → ∀ name args,
      Spends (call n) (invoke name p args)) :
    Spends (c + (callee.definitions.map call).sum)
      (host.tally.call host invoke callee args values) := by
  cases callee with
  | scalar name native => exact spends.free fun vs => (acts host).numeric native vs
  | vararg name native => exact spends.free fun vs => (acts host).numeric native vs
  | generic name native overload writeback =>
      exact spends.free fun vs =>
        (acts host).callGeneric stepwise (fun _ _ => trivial) native overload vs
  | composed name definition =>
      simp only [Kernel.call]
      cases found : host.body? definition with
      | none => exact throw (by simp)
      | some p =>
          have called := invokes definition (by simp [Callee.definitions]) p found name
          exact spends.bind fun vs =>
            ((called _).free fun x => pure _).mono (by simp [Callee.definitions])

theorem swap {left right : Flow (Beside Nat) (Target Float)} (lefts : Spends a left)
    (rights : Spends b right) : Spends (a + b) (host.tally.swap left right) := by
  have reads : ∀ t, Spends 0 (host.tally.readTarget t) := fun t =>
    (acts host).readTarget stepwise (t := t) trivial
  have writes : ∀ t v, Spends 0 (host.tally.writeTarget t v) := fun t =>
    (acts host).writeTarget (t := t) trivial
  refine lefts.bind fun s => (reads s).ahead fun old => rights.free fun t =>
    (reads t).ahead fun new => ?_
  cases old <;> cases new
  case some.some v w => exact (writes s w).ahead fun _ => (writes t v).ahead fun _ => pure v
  all_goals exact pure _

/-- What a node costs is what the trees below it cost, what it calls, and one more. -/
theorem walk_node {t : Tree} (flat : t.body? = none)
    (invokes : ∀ n ∈ t.calls, ∀ p, host.body? n = some p → ∀ name args,
      Spends (call n) (invoke name p args))
    (below : ∀ u ∈ t.children, Spends (u.cost call) (u.walk host.tally host invoke)) :
    Spends (t.cost call) (t.walk host.tally host invoke) := by
  rw [walk.eq_def, cost_eq]
  refine bind ?_ fun v => note.free fun _ => pure v
  cases t <;> simp only [repeats, Nat.one_mul, Tree.calls, List.map_nil, List.sum_nil, Nat.add_zero]
  case null => exact pure _
  case number x => exact pure _
  case text s => exact pure _
  case load b => exact (acts host).read b.place trivial
  case size b => exact (acts host).size stepwise trivial
  case continueLoop => exact throw (by simp)
  case element b index =>
      exact ((below index (by simp [children])).free fun v =>
        (acts host).element stepwise trivial _).mono (by simp [children])
  case slice b first last =>
      simp only [children, List.mem_append] at below
      have firsts := walkIndex fun u inside => below u (.inl inside)
      have lasts := walkIndex fun u inside => below u (.inr inside)
      refine (firsts.bind fun x => lasts.free fun y =>
        (acts host).slice stepwise trivial x y).mono ?_
      simp [children]
  case apply op args =>
      exact (walkList below).free fun vs => pure _
  case logic op left right =>
      have lefts := below left (by simp [children])
      have rights := below right (by simp [children])
      exact (lefts.connect op rights).mono (by simp [children])
  case call callee args => exact calling (walkList below) invokes
  case branch test yes no =>
      simp only [children, List.mem_cons] at below
      have yeses := below yes (.inr (.inl rfl))
      have noes := walkOption fun u inside => below u (.inr (.inr inside))
      refine (below test (.inl rfl)).truth.bind fun holds => ?_
      cases holds with
      | true => exact yeses.mono (Nat.le_add_right _ _)
      | false => exact noes.mono (Nat.le_add_left _ _)
  case switch cases default =>
      simp only [children, List.mem_append] at below
      have found := walkCases fun u inside => below u (.inl inside)
      have defaults := walkOption fun u inside => below u (.inr inside)
      simp only [children, List.map_append, List.sum_append]
      refine found.bind fun value => ?_
      cases value with
      | some v => exact pure v
      | none => exact defaults
  case whileLoop test body => cases flat
  case forLoop first test step body => cases flat
  case repeatLoop body stop => cases flat
  case breakLoop payload => exact (walkIndex below).free fun x => throw (by simp)
  case returnList items => exact (walkList below).free fun vs => throw (by simp)
  case sequence items => exact walkSequence .null below
  case declare slot shape parts =>
      have firsts := fun absent => walkFirst absent below
      have declares : ∀ v, Spends 0 (host.tally.declare slot shape.kind v) := fun v =>
        (acts host).declare slot v trivial
      exact (initial shape (walkList below) firsts).free fun v => (declares v).free fun _ => pure _
  case assign target op value =>
      simp only [children, List.mem_append, List.mem_singleton] at below
      have targets := walkTarget fun u inside => below u (.inl inside)
      refine ((below value (.inr rfl)).bind fun v => targets.free fun t =>
        (acts host).assign stepwise trivial op v).mono ?_
      simp [children, Nat.add_comm]
  case swap left right =>
      simp only [children, List.mem_append] at below
      have lefts := walkTarget fun u inside => below u (.inl inside)
      have rights := walkTarget fun u inside => below u (.inr inside)
      exact (lefts.swap rights).mono (by simp [children])

/-- A tree without loops costs what is told of it, if the calls in it do. -/
theorem walk_tree {t : Tree} (flat : t.LoopFree)
    (invokes : ∀ n, t.Calls n → ∀ p, host.body? n = some p → ∀ name args,
      Spends (call n) (invoke name p args)) :
    Spends (t.cost call) (t.walk host.tally host invoke) := by
  have every : t.Every fun node => node.body? = none ∧ ∀ n ∈ node.calls, ∀ p,
      host.body? n = some p → ∀ name args, Spends (call n) (invoke name p args) :=
    every_iff.mpr fun node member =>
      ⟨flat node member, fun n called => invokes n ⟨node, member, called⟩⟩
  clear flat invokes
  -- The induction is on the tree; what calls cost is the same for all of its nodes.
  induction every with
  | node own _ ih => exact walk_node own.1 own.2 ih

/-- A call that is reached costs no more than is told from the number of calls it has to go. -/
theorem invokes {root : Tree} (flat : ∀ t, Reaches host.body? root t → t.LoopFree) (depth : Nat)
    {t : Tree} (reached : Reaches host.body? root t) {n : Nat} (called : t.Calls n) {p : Program}
    (found : host.body? n = some p) (name : String) (args : List Float) :
    Spends (callCost host.body? depth n) (host.tally.invoke host depth name p args) := by
  induction depth generalizing t n p name args with
  | zero => exact throw (by simp)
  | succ depth ih =>
      -- Every call in the body has one call less to go, whichever function it is of.
      have inside : Reaches host.body? root p.tree := .body reached called found
      have body := walk_tree (flat _ inside) fun n called p found name args =>
        ih inside called found name args
      rw [callCost, found]
      exact body.enter p args

end

end Spends

/-! ### Whole runs -/

namespace Host

variable (host : Host) (program : Program) (store : Store)

theorem tally_inStep : (Machine.kernel host).InStep host.tally
    (fun {α} (x : Eval α) (y : Flow (Beside Nat) α) => Agree (fun m s => s.machine = m) x y)
    (fun _ => True) fun _ _ => True := by
  rw [← Acts.Machine.kernel_machine]
  have acts := (Beside.acts_inStep host).kernel (agree_lockstep _).toStepwise Host.enter
    (Beside.enter (fun n => n + 1) fun _ n => n)
  refine { acts with finished := fun _ _ => ?_ }
  rintro _ s rfl
  exact ⟨rfl, rfl⟩

/-- A count changes nothing. -/
theorem run_tallied :
    host.run program store =
      ⟨outcomeOf (host.tallied program store),
        (lastState (host.tallied program store)).machine.store,
        (lastState (host.tallied program store)).machine.reports.toList⟩ := by
  apply run_beside
  apply host.tally_inStep.runs (agree_lockstep _)
  · exact .inl rfl
  · exact fun _ => rfl
  · exact fun p args x y same =>
      Beside.agree_enter (fun n => n + 1) (fun _ n => n) p args same
  · exact Nat.le_refl _
  · intro name y equal
    rw [equal rfl]
    exact agree_throw _
  · rfl

def lasting (rounds : Nat) : Host := { host with rounds := rounds }

/-- With fewer rounds a run is cut short, or it goes as with more of them. -/
theorem lasting_curtails {rounds more : Nat} (fewer : rounds ≤ more) :
    Curtails Eq (fun e (_ _ : Machine) => e = .tired)
      ((Machine.kernel host).run (host.lasting rounds) program)
      ((Machine.kernel host).run (host.lasting more) program) := by
  apply (Kernel.InStep.self curtails_self _).runs (curtails_lockstep _ _)
  · refine .inr ⟨fewer, fun y => ?_⟩
    exact .stopped (e := .tired) trivial (fun _ _ _ => rfl) (curtails_self y).stays
  · exact fun _ => rfl
  · intro q args x y same
    apply same.enter <;> simp +contextual
  · exact Nat.le_refl _
  · intro name y equal
    rw [equal rfl]
    exact curtails_self _

variable {host program}

/-- A run that does not tire goes the same way with more rounds. -/
theorem run_lasting {rounds more : Nat} (fewer : rounds ≤ more)
    (lasts : ((host.lasting rounds).run program store).outcome ≠ .tired) :
    (host.lasting more).run program store = (host.lasting rounds).run program store := by
  rw [run_eq] at lasts
  rw [run_eq, run_eq]
  rcases (host.lasting_curtails program fewer).ends (s := start program store) rfl with
    alike | ⟨e, m, stopped, rfl⟩
  · exact congrArg reportOf alike.eq.symm
  · exact absurd (congrArg outcomeOf stopped) lasts

variable (host) in
/-- The count of a run without loops stays within what its trees cost, and no loop ends it. -/
theorem spends_tallied (flat : ∀ t, Tree.Reaches host.body? program.tree t → t.LoopFree) :
    outcomeOf (host.tallied program store) ≠ .tired ∧
      (lastState (host.tallied program store)).notes ≤
        program.tree.cost (callCost host.body? host.limit) := by
  have spent := Spends.walk_tree (flat _ .root)
    (fun _ called _ found => Spends.invokes flat host.limit .root called found)
    ⟨start program store, 0⟩
  unfold Ends at spent
  unfold tallied Kernel.run
  cases end_eq : program.tree.walk host.tally host (host.tally.invoke host host.limit)
      ⟨start program store, 0⟩ with
  | ok v s =>
      rw [end_eq] at spent
      exact ⟨by simp [outcomeOf], by simpa using spent⟩
  | error e s =>
      rw [end_eq] at spent
      refine ⟨fun tired => spent.1 ?_, by simpa using spent.2⟩
      cases e
      case tired => rfl
      all_goals cases tired

end Host

/-- A program that comes to no loop, in its own tree or in the body of a function it reaches, ends
with a value or with a fault, however its functions call each other. It ends alike for every
allowance of rounds, and the count of its nodes and bodies stays within what its trees cost. -/
theorem loop_free_programs_finish (host : Host) (program : Program) (store : Store)
    (flat : ∀ t, Tree.Reaches host.body? program.tree t → t.LoopFree) :
    ((∃ v results, (host.run program store).outcome = .finished v results) ∨
      ∃ f, (host.run program store).outcome = .faulted f) ∧
    (∀ rounds, (host.lasting rounds).run program store = host.run program store) ∧
    host.run program store =
      ⟨Host.outcomeOf (host.tallied program store),
        (lastState (host.tallied program store)).machine.store,
        (lastState (host.tallied program store)).machine.reports.toList⟩ ∧
    (lastState (host.tallied program store)).notes ≤
      program.tree.cost (callCost host.body? host.limit) := by
  have lasts : ∀ rounds, ((host.lasting rounds).run program store).outcome ≠ .tired := by
    intro rounds
    rw [Host.run_tallied]
    exact ((host.lasting rounds).spends_tallied store flat).1
  refine ⟨?_, fun rounds => ?_, host.run_tallied program store, (host.spends_tallied store flat).2⟩
  · cases outcome : (host.run program store).outcome with
    | finished v results => exact .inl ⟨v, results, rfl⟩
    | faulted f => exact .inr ⟨f, rfl⟩
    | tired => exact absurd outcome (lasts host.rounds)
  · -- Already without any rounds the run does not tire, so no number of them makes a difference.
    have none : ∀ more, (host.lasting more).run program store =
        (host.lasting 0).run program store :=
      fun more => Host.run_lasting store (Nat.zero_le more) (lasts 0)
    exact (none rounds).trans (none host.rounds).symm

/-- Two functions that call each other without end. -/
theorem loop_free_programs_finish_of_mutual_calls :
    let call (name : String) (n : Nat) : Program := ⟨.call (.composed name n) [], 0⟩
    let host : Host :=
      ⟨#[], fun n => if n = 0 then some (call "g" 1) else some (call "f" 0), none, 3, 0⟩
    (∀ t, Tree.Reaches host.body? (call "f" 0).tree t → t.LoopFree) ∧
      (host.run (call "f" 0) .empty).outcome = .faulted (.recursionLimit "g" 3) ∧
      ∀ rounds, (host.lasting rounds).run (call "f" 0) .empty = host.run (call "f" 0) .empty := by
  intro call host
  have flat : ∀ t, Tree.Reaches host.body? (call "f" 0).tree t → t.LoopFree := by
    have single : ∀ name n, (call name n).tree.LoopFree := by
      intro name n node member
      rw [Tree.nodes_eq] at member
      obtain rfl : node = (call name n).tree := by simpa [call, Tree.children] using member
      rfl
    intro t reached
    cases reached with
    | root => exact single _ _
    | @body t n p within called found =>
        by_cases first : n = 0
        · obtain rfl : call "g" 1 = p := by simpa [host, first] using found
          exact single _ _
        · obtain rfl : call "f" 0 = p := by simpa [host, first] using found
          exact single _ _
  exact ⟨flat, rfl, (loop_free_programs_finish host (call "f" 0) .empty flat).2.1⟩

end MathScript
