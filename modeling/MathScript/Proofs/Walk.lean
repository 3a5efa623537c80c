import MathScript.Evaluate
import MathScript.Footprint
import MathScript.Proofs.Flow

/-!
Evaluation over a kernel. A kernel gives the steps in which an evaluation touches its state,
and is told of operations in front of them and of nodes behind them. A walk is an evaluation
that leaves everything else to its kernel; over the kernel of the machine, which is told
nothing, it is evaluation itself.
-/

namespace MathScript

structure Kernel (σ : Type) where
  load : Binding → Flow σ Value
  element : Binding → Float → Flow σ Value
  slice : Binding → Option Float → Option Float → Flow σ Value
  size : Binding → Flow σ Value
  assign : Target Float → AssignOp → Value → Flow σ Value
  readTarget : Target Float → Flow σ (Option Value)
  writeTarget : Target Float → Value → Flow σ Unit
  declare : Nat → Kind → Value → Flow σ Unit
  numeric : Nat → List Value → Flow σ Value
  generic : Nat → Nat → List (Option Binding) → List Tree → List Value → Flow σ Value
  enter : Program → List Float → Flow σ Value → Flow σ Float
  applied : Operation → List Tree → List Value → Flow σ Unit
  finished : Tree → Value → Flow σ Unit

namespace Kernel

variable {σ : Type} (k : Kernel σ) (host : Host)

abbrev Invoking (σ : Type) := String → Program → List Float → Flow σ Float

/-- The meaning of a node, with the kernel told of its value. -/
def closing (t : Tree) (meaning : Flow σ Value) : Flow σ Value := do
  let v ← meaning
  k.finished t v
  return v

def apply (op : Operation) (args : List Tree) (values : Flow σ (List Value)) :
    Flow σ Value := do
  let vs ← values
  k.applied op args vs
  return op.result vs

def call (invoke : Invoking σ) (callee : Callee) (args : List Tree)
    (values : Flow σ (List Value)) : Flow σ Value := do
  match callee with
  | .composed name definition =>
      match host.body? definition with
      | none => throw (.fault (.unavailable name))
      | some program =>
          let values ← values
          return .scalar (← invoke name program (values.map Value.asScalar))
  | .scalar _ native | .vararg _ native => k.numeric native (← values)
  | .generic _ native overload writeback => k.generic native overload writeback args (← values)

def swap (left right : Flow σ (Target Float)) : Flow σ Value := do
  let left ← left
  let old ← k.readTarget left
  let right ← right
  match old, ← k.readTarget right with
  | some a, some b =>
      k.writeTarget left b
      k.writeTarget right a
      return a
  | _, _ => return .null

end Kernel

namespace Tree

open Flow Kernel

variable {σ : Type}

mutual

def walk (k : Kernel σ) (host : Host) (invoke : Invoking σ) (t : Tree) : Flow σ Value :=
  k.closing t <| match t with
  | .null => return .null
  | .number x => return .scalar x
  | .text s => return .string s
  | .load b => k.load b
  | .element b index => do k.element b (← index.walk k host invoke).asScalar
  | .slice b first last => do
      let first ← walkIndex k host invoke first
      let last ← walkIndex k host invoke last
      k.slice b first last
  | .size b => k.size b
  | .apply op args => k.apply op args (walkList k host invoke args)
  | .logic op left right => connect op (left.walk k host invoke) (right.walk k host invoke)
  | .call callee args => k.call host invoke callee args (walkList k host invoke args)
  | .branch test yes no => do
      if ← truth (test.walk k host invoke) then yes.walk k host invoke
      else walkOption k host invoke no
  | .switch cases default => do
      match ← walkCases k host invoke cases with
      | some v => return v
      | none => walkOption k host invoke default
  | .whileLoop test body =>
      loop (truth (test.walk k host invoke)) (pure ()) (body.walk k host invoke) host.rounds .null
  | .forLoop first test step body => do
      ignore (walkOption k host invoke first)
      loop (walkTest k host invoke test) (ignore (walkOption k host invoke step))
        (body.walk k host invoke) host.rounds .null
  | .repeatLoop body stop =>
      loopUntil (body.walk k host invoke) (truth (stop.walk k host invoke)) host.rounds .null
  | .breakLoop payload => do throw (.leave (← walkIndex k host invoke payload))
  | .continueLoop => throw .next
  | .returnList items => do throw (.give (← walkList k host invoke items))
  | .sequence items => walkSequence k host invoke .null items
  | .declare slot shape parts => do
      let v ← initial shape (walkList k host invoke parts) fun absent =>
        walkFirst k host invoke absent parts
      k.declare slot shape.kind v
      return shape.yield v
  | .assign target op value => do
      let v ← value.walk k host invoke
      let t ← walkTarget k host invoke target
      k.assign t op v
  | .swap left right => k.swap (walkTarget k host invoke left) (walkTarget k host invoke right)

def walkOption (k : Kernel σ) (host : Host) (invoke : Invoking σ) : Option Tree → Flow σ Value
  | none => return .null
  | some t => t.walk k host invoke

def walkIndex (k : Kernel σ) (host : Host) (invoke : Invoking σ) :
    Option Tree → Flow σ (Option Float)
  | none => return none
  | some t => do return some (← t.walk k host invoke).asScalar

def walkTest (k : Kernel σ) (host : Host) (invoke : Invoking σ) : Option Tree → Flow σ Bool
  | none => return true
  | some t => truth (t.walk k host invoke)

def walkList (k : Kernel σ) (host : Host) (invoke : Invoking σ) :
    List Tree → Flow σ (List Value)
  | [] => return []
  | t :: ts => do
      let v ← t.walk k host invoke
      let vs ← walkList k host invoke ts
      return v :: vs

def walkFirst (k : Kernel σ) (host : Host) (invoke : Invoking σ) (absent : Value) :
    List Tree → Flow σ Value
  | [] => return absent
  | t :: _ => t.walk k host invoke

def walkSequence (k : Kernel σ) (host : Host) (invoke : Invoking σ) (last : Value) :
    List Tree → Flow σ Value
  | [] => return last
  | t :: ts => do walkSequence k host invoke (← t.walk k host invoke) ts

def walkCases (k : Kernel σ) (host : Host) (invoke : Invoking σ) :
    List (Tree × Tree) → Flow σ (Option Value)
  | [] => return none
  | (test, body) :: cases => do
      if ← truth (test.walk k host invoke) then return some (← body.walk k host invoke)
      else walkCases k host invoke cases

def walkTarget (k : Kernel σ) (host : Host) (invoke : Invoking σ) :
    Target Tree → Flow σ (Target Float)
  | .whole b => return .whole b
  | .element b index => do return .element b (← index.walk k host invoke).asScalar
  | .range b first last => do
      let first ← walkIndex k host invoke first
      let last ← walkIndex k host invoke last
      return .range b first last

end

end Tree

/-- Invocation with `depth` calls to go. -/
def Kernel.invoke {σ : Type} (k : Kernel σ) (host : Host) : Nat → Kernel.Invoking σ
  | 0, name, _, _ => throw (.fault (.recursionLimit name host.limit))
  | depth + 1, _, program, args =>
      k.enter program args (program.tree.walk k host (k.invoke host depth))

/-- A property of trees holds if it passes from the nodes directly below a node to the node. -/
theorem Tree.children_induction {P : Tree → Prop}
    (step : ∀ t : Tree, (∀ child ∈ t.children, P child) → P t) (t : Tree) : P t :=
  step t fun child member =>
    have := Tree.sizeOf_lt_of_mem_children member
    Tree.children_induction step child
termination_by sizeOf t

/-! ### The machine -/

def Machine.kernel (host : Host) : Kernel Machine where
  load := Eval.load
  element := Eval.element host.check
  slice := Eval.slice host.check
  size := Eval.size
  assign := Eval.assign host.check
  readTarget := Eval.readTarget host.check
  writeTarget := Eval.writeTarget
  declare slot _ v := modify fun m => m.declare slot v
  numeric := Eval.callNumeric host
  generic native overload writeback _ values :=
    Eval.callGeneric host native overload writeback values
  enter := Host.enter
  applied _ _ _ := pure ()
  finished _ _ := pure ()

namespace Machine

open Tree

variable (host : Host)

theorem closing_kernel (t : Tree) (meaning : Eval Value) :
    (kernel host).closing t meaning = meaning := by
  simp [Kernel.closing, kernel]

theorem apply_kernel (op : Operation) (args : List Tree) (values : Eval (List Value)) :
    (kernel host).apply op args values = do return op.result (← values) := by
  simp [Kernel.apply, kernel]

theorem call_kernel (invoke : Invoke) (callee : Callee) (args : List Tree)
    (values : Eval (List Value)) :
    (kernel host).call host invoke callee args values = Eval.call host invoke callee values := by
  cases callee <;> rfl

theorem swap_kernel (left right : Eval (Target Float)) :
    (kernel host).swap left right = Eval.swap host.check left right := rfl

section

variable {host} {invoke : Invoke}

theorem walkOption_kernel {t : Option Tree}
    (same : ∀ u ∈ t.toList, u.walk (kernel host) host invoke = u.eval host invoke) :
    walkOption (kernel host) host invoke t = evalOption host invoke t := by
  cases t with
  | none => rfl
  | some u => exact same u (by simp)

theorem walkIndex_kernel {t : Option Tree}
    (same : ∀ u ∈ t.toList, u.walk (kernel host) host invoke = u.eval host invoke) :
    walkIndex (kernel host) host invoke t = evalIndex host invoke t := by
  cases t with
  | none => rfl
  | some u => simp only [walkIndex, evalIndex, same u (by simp)]

theorem walkTest_kernel {t : Option Tree}
    (same : ∀ u ∈ t.toList, u.walk (kernel host) host invoke = u.eval host invoke) :
    walkTest (kernel host) host invoke t = evalTest host invoke t := by
  cases t with
  | none => rfl
  | some u => simp only [walkTest, evalTest, same u (by simp)]

theorem walkList_kernel {ts : List Tree}
    (same : ∀ u ∈ ts, u.walk (kernel host) host invoke = u.eval host invoke) :
    walkList (kernel host) host invoke ts = evalList host invoke ts := by
  induction ts with
  | nil => rfl
  | cons t ts ih =>
      simp only [walkList, evalList, same t (by simp),
        ih fun u inside => same u (List.mem_cons_of_mem t inside)]

theorem walkFirst_kernel {ts : List Tree} (absent : Value)
    (same : ∀ u ∈ ts, u.walk (kernel host) host invoke = u.eval host invoke) :
    walkFirst (kernel host) host invoke absent ts = evalFirst host invoke absent ts := by
  cases ts with
  | nil => rfl
  | cons t ts => exact same t (by simp)

theorem walkSequence_kernel {ts : List Tree} (last : Value)
    (same : ∀ u ∈ ts, u.walk (kernel host) host invoke = u.eval host invoke) :
    walkSequence (kernel host) host invoke last ts = evalSequence host invoke last ts := by
  induction ts generalizing last with
  | nil => rfl
  | cons t ts ih =>
      simp only [walkSequence, evalSequence, same t (by simp),
        ih _ fun u inside => same u (List.mem_cons_of_mem t inside)]

theorem walkCases_kernel {cases : List (Tree × Tree)}
    (same : ∀ u ∈ cases.flatMap fun (test, body) => [test, body],
      u.walk (kernel host) host invoke = u.eval host invoke) :
    walkCases (kernel host) host invoke cases = evalCases host invoke cases := by
  induction cases with
  | nil => rfl
  | cons c cases ih =>
      obtain ⟨test, body⟩ := c
      simp only [List.flatMap_cons, List.mem_append] at same
      simp only [walkCases, evalCases, same test (by simp), same body (by simp),
        ih fun u inside => same u (.inr inside)]

theorem walkTarget_kernel {target : Target Tree}
    (same : ∀ u ∈ target.indices, u.walk (kernel host) host invoke = u.eval host invoke) :
    walkTarget (kernel host) host invoke target = evalTarget host invoke target := by
  cases target with
  | whole b => rfl
  | element b index => simp only [walkTarget, evalTarget, same index (by simp [Target.indices])]
  | range b first last =>
      simp only [Target.indices, List.mem_append] at same
      simp only [walkTarget, evalTarget, walkIndex_kernel fun u inside => same u (.inl inside),
        walkIndex_kernel fun u inside => same u (.inr inside)]

end

/-- A walk over the kernel of the machine is evaluation. -/
theorem walk_kernel (invoke : Invoke) (t : Tree) :
    t.walk (kernel host) host invoke = t.eval host invoke := by
  induction t using Tree.children_induction with
  | step t ih =>
      rw [walk.eq_def, closing_kernel]
      -- One hypothesis for each child, in the form the lemmas above ask for.
      cases t <;> simp only [children, List.mem_append, List.mem_cons, List.not_mem_nil,
        or_false, forall_eq, or_imp, forall_and] at ih
      case null | number | text | load | size | continueLoop => rfl
      case element b index =>
          simp only [eval, ih]
          rfl
      case slice b first last =>
          simp only [eval, walkIndex_kernel ih.1, walkIndex_kernel ih.2]
          rfl
      case apply op args => simp only [eval, apply_kernel, walkList_kernel ih]
      case logic op left right => simp only [eval, ih]
      case call callee args => simp only [eval, call_kernel, walkList_kernel ih]
      case branch test yes no => simp only [eval, ih.1, ih.2.1, walkOption_kernel ih.2.2]
      case switch cases default =>
          simp only [eval, walkCases_kernel ih.1, walkOption_kernel ih.2] <;> rfl
      case whileLoop test body => simp only [eval, ih]
      case forLoop first test step body =>
          obtain ⟨⟨⟨firsts, tests⟩, steps⟩, bodies⟩ := ih
          simp only [eval, walkOption_kernel firsts, walkTest_kernel tests,
            walkOption_kernel steps, bodies]
      case repeatLoop body stop => simp only [eval, ih]
      case breakLoop payload => simp only [eval, walkIndex_kernel ih]
      case returnList items => simp only [eval, walkList_kernel ih]
      case sequence items => simp only [eval, walkSequence_kernel _ ih]
      case declare slot shape parts =>
          simp only [eval, walkList_kernel ih, walkFirst_kernel _ ih]
          rfl
      case assign target op value =>
          simp only [eval, ih.2, walkTarget_kernel ih.1]
          rfl
      case swap left right =>
          simp only [eval, walkTarget_kernel ih.1, walkTarget_kernel ih.2, swap_kernel]

theorem invoke_kernel (depth : Nat) : (kernel host).invoke host depth = host.invoke depth := by
  induction depth with
  | zero => rfl
  | succ depth ih =>
      -- A body runs over the invocations one call less deep, which are equal by induction.
      funext name program args
      simp only [Kernel.invoke, Host.invoke, ih, walk_kernel]
      rfl

end Machine

end MathScript
