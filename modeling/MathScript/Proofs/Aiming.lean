import MathScript.Proofs.Acceptance
import MathScript.Proofs.Bearing
import MathScript.Proofs.Curtail
import MathScript.Proofs.Meaning
import MathScript.Proofs.Pages
import MathScript.Proofs.Rounds

/-!
How often the indices of a target are evaluated. What stands on a side of an assignment or a swap is
read as an operand, and then aimed at. Whole variables, elements of vectors and ranges of strings
evaluate every index once, as the operand does. A character of a string is aimed at as the range
from its index to its index, so its index is evaluated twice: the target is that of one evaluation
exactly where the second one leaves the machine as the first did and yields its number again.
-/

namespace MathScript

open Machine

/-! ### One evaluation of every index -/

namespace Tree

variable (host : Host) (invoke : Invoke)

/-- What an operand stands for when it is written, with every index evaluated once. A character of
a string is the range from its index to itself. -/
def aimOnce : Tree → Eval (Target Float)
  | .load b => return .whole b
  | .element b index => do
      let i := (← index.eval host invoke).asScalar
      return if b.kind = .vector then .element b i else .range b (some i) (some i)
  | .slice b first last => do
      let first ← evalIndex host invoke first
      let last ← evalIndex host invoke last
      return .range b first last
  -- Nothing else is aimed at.
  | _ => throw .next

def assignOnce (left : Tree) (op : AssignOp) (value : Tree) : Eval Value := do
  let v ← value.eval host invoke
  let t ← left.aimOnce host invoke
  Eval.assign host.check t op v

def swapOnce (left right : Tree) : Eval Value :=
  Eval.swap host.check (left.aimOnce host invoke) (right.aimOnce host invoke)

/-- Evaluated again right behind itself, the index of a character changes nothing and yields the
same number; or it does not come to that. -/
def Repeats (m : Machine) : Tree → Prop
  | .element b index => b.kind ≠ .vector → ∀ v m', index.eval host invoke m = .ok v m' →
      ∃ w, index.eval host invoke m' = .ok w m' ∧ w.asScalar = v.asScalar
  | _ => True

end Tree

open Tree

/-- The target is what the operand stands for with every index evaluated once, exactly where the
operand repeats. -/
def Target.AimsAt (t : Target Tree) (left : Tree) : Prop :=
  ∀ host invoke m, evalTarget host invoke t m = left.aimOnce host invoke m ↔
    left.Repeats host invoke m

theorem Target.aimsAt_element {b : Binding} (vector : b.kind = .vector) (index : Tree) :
    AimsAt (.element b index) (.element b index) := by
  intro host invoke m
  have same : evalTarget host invoke (.element b index) =
      aimOnce host invoke (.element b index) := by
    simp only [evalTarget, aimOnce, if_pos vector]
  exact iff_of_true (by rw [same]) fun other => absurd vector other

/-- The second evaluation starts where the first one has completed. -/
theorem Target.aimsAt_character {b : Binding} (other : b.kind ≠ .vector) (index : Tree) :
    AimsAt (.range b (some index) (some index)) (.element b index) := by
  intro host invoke m
  simp only [evalTarget, evalIndex, aimOnce, Repeats, if_neg other, bind_assoc, pure_bind]
  cases first : index.eval host invoke m with
  | error e m' =>
      rw [bind_stopped first, bind_stopped first]
      exact iff_of_true rfl fun _ v m' done => by cases done
  | ok v m' =>
      rw [bind_completed first, bind_completed first]
      constructor
      · rintro same - v' m'' ⟨⟩
        cases again : index.eval host invoke m' with
        | error e m'' =>
            rw [bind_stopped again] at same
            cases same
        | ok w m'' =>
            rw [bind_completed again] at same
            injection same with target machine
            injection target with _ _ number
            exact ⟨w, by rw [machine], Option.some.inj number⟩
      · intro repeats
        obtain ⟨w, again, number⟩ := repeats other v m' rfl
        rw [bind_completed again, number]

section

variable {l r : Target Tree} {left right : Tree} {host : Host} {invoke : Invoke} {m : Machine}

theorem Target.AimsAt.assign (aims : l.AimsAt left) (op : AssignOp) (value : Tree)
    (repeats : ∀ v m', value.eval host invoke m = .ok v m' → left.Repeats host invoke m') :
    eval host invoke (.assign l op value) m = assignOnce host invoke left op value m := by
  simp only [eval, assignOnce]
  cases first : value.eval host invoke m with
  | error e m' => rw [bind_stopped first, bind_stopped first]
  | ok v m' =>
      rw [bind_completed first, bind_completed first]
      exact bind_same ((aims host invoke m').mpr (repeats v m' first)) _

/-- The left side is read before the right one is aimed at. -/
theorem Target.AimsAt.swap (aims : l.AimsAt left) (aims' : r.AimsAt right)
    (repeats : left.Repeats host invoke m)
    (repeats' : ∀ t m₁ old m₂, left.aimOnce host invoke m = .ok t m₁ →
      Eval.readTarget host.check t m₁ = .ok old m₂ → right.Repeats host invoke m₂) :
    eval host invoke (.swap l r) m = swapOnce host invoke left right m := by
  simp only [eval, swapOnce, Eval.swap]
  rw [bind_same ((aims host invoke m).mpr repeats)]
  cases aimed : left.aimOnce host invoke m with
  | error e m₁ => rw [bind_stopped aimed, bind_stopped aimed]
  | ok t m₁ =>
      rw [bind_completed aimed, bind_completed aimed]
      cases read : Eval.readTarget host.check t m₁ with
      | error e m₂ => rw [bind_stopped read, bind_stopped read]
      | ok old m₂ =>
          rw [bind_completed read, bind_completed read]
          exact bind_same ((aims' host invoke m₂).mpr (repeats' t m₁ old m₂ aimed read)) _

end

/-! ### Indices without effects -/

namespace Tree

/-- Whether a node itself may change the machine. An access outside of a vector is told to a check,
if there is one. -/
def disturbs (checked : Bool) : Tree → Bool
  | .assign .. | .swap .. | .declare .. | .call .. => true
  | .element b _ | .slice b _ _ => checked && b.kind != .string
  | _ => false

/-- No node of the operand changes the machine. -/
def Calm (host : Host) (left : Tree) : Prop :=
  ∀ node ∈ left.nodes, node.disturbs host.check.isSome = false

end Tree

namespace Eval

variable {I : Machine → Prop} {check : Option Check} {b : Binding}

theorem keeps_element_unseen (unseen : (check.isSome && b.kind != .string) = false) (x : Float) :
    Keeps I (element check b x) := by
  have looked : Keeps I (element? none b x) := by
    refine keeps_bind keeps_look fun xs => ?_
    split
    · exact keeps_pure _
    · exact keeps_bind (keeps_pure ()) fun _ => keeps_pure _
  unfold element
  cases kind_eq : b.kind with
  | string => exact keeps_bind keeps_look fun _ => keeps_pure _
  | scalar | vector =>
      obtain rfl : check = none := by
        cases check <;> simp_all
      exact keeps_bind looked fun _ => keeps_pure _

theorem keeps_slice_unseen (unseen : (check.isSome && b.kind != .string) = false)
    (first last : Option Float) : Keeps I (slice check b first last) := by
  have bounds : ∀ length bound, Keeps I (reportBound none b length bound) := fun length bound => by
    cases bound with
    | none => exact keeps_pure ()
    | some x =>
        simp only [reportBound]
        split <;> exact keeps_pure ()
  unfold slice
  cases kind_eq : b.kind with
  | string => exact keeps_bind keeps_look fun _ => keeps_pure _
  | scalar | vector =>
      obtain rfl : check = none := by
        cases check <;> simp_all
      exact keeps_bind keeps_look fun _ => keeps_bind (bounds _ first) fun _ =>
        keeps_bind (bounds _ last) fun _ => keeps_bind keeps_look fun _ => keeps_pure _

theorem keeps_size (b : Binding) : Keeps I (size b) := by
  unfold size
  cases b.kind with
  | vector | string => exact keeps_bind keeps_look fun _ => keeps_pure _
  | scalar => exact keeps_pure _

end Eval

namespace Machine

variable {I : Machine → Prop} {host : Host} {t : Tree}

theorem inStepAt_of_calm (calm : t.disturbs host.check.isSome = false) :
    (kernel host).InStepAt (kernel host) (fun {α} (x : Eval α) (_ : Eval α) => Keeps I x) t := by
  cases t with
  | load b => exact Eval.keeps_look
  | element b index => exact Eval.keeps_element_unseen calm
  | slice b first last => exact Eval.keeps_slice_unseen calm
  | size b => exact Eval.keeps_size b
  | apply op args => exact fun vs => keeps_pure ()
  | assign | swap | declare | call => cases calm
  | null | number | text | logic | branch | switch | whileLoop | forLoop | repeatLoop | breakLoop
  | continueLoop | returnList | sequence => trivial

/-- What is calm ends on the machine it started on. -/
theorem keeps_calm {invoke : Invoke}
    (calm : ∀ node ∈ t.nodes, node.disturbs host.check.isSome = false) :
    Keeps I (t.eval host invoke) := by
  have walked : ∀ u : Tree, u.Every (fun node => node.disturbs host.check.isSome = false) →
      Keeps I (u.walk (kernel host) host invoke) := by
    intro u every
    induction every with
    | @node u own _ ih =>
        refine Kernel.InStep.walk_node_self (keeps_lockstep _) (inStepAt_of_calm own)
          (fun _ => keeps_pure ()) (fun n called => ?_) ih
        -- Nothing that is calm calls a function.
        cases u <;> first | cases called | cases own
  rw [← walk_kernel]
  exact walked t (every_iff.mpr calm)

end Machine

theorem Tree.Calm.repeats {host : Host} {left : Tree} (calm : left.Calm host) (invoke : Invoke)
    (m : Machine) : left.Repeats host invoke m := by
  unfold Repeats
  split
  · next b index =>
      intro _ v m' done
      have below : index ∈ (Tree.element b index).nodes :=
        mem_nodes_child (mem_nodes_self _) (by simp [children])
      have kept : Keeps (· = m) (index.eval host invoke) :=
        keeps_calm fun node inside => calm node (nodes_subset below inside)
      obtain rfl : m' = m := (kept m rfl).of_ok done
      exact ⟨v, done, rfl⟩
  · trivial

/-! ### What the parser aims at -/

/-- The node is an assignment to the operand. It is the one that evaluates every index once if the
operand repeats behind the value, folded or not. -/
structure Tree.Assigns (left : Tree) (op : AssignOp) (value node : Tree) : Prop where
  aims : ∃ t, node = .assign t op value ∧ t.AimsAt left
  once : ∀ host depth folding m,
    (∀ v m', value.eval host (host.invoke depth) m = .ok v m' →
      left.Repeats host (host.invoke depth) m') →
    (settle folding node).eval host (host.invoke depth) m =
      assignOnce host (host.invoke depth) left op value m

/-- The node is a swap of two operands. It is the one that evaluates every index once if the left
operand repeats at the start, and the right one once the left one is read. -/
structure Tree.Swaps (left right node : Tree) : Prop where
  aims : ∃ l r, node = .swap l r ∧ l.AimsAt left ∧ r.AimsAt right
  once : ∀ host depth folding m, left.Repeats host (host.invoke depth) m →
    (∀ t m₁ old m₂, left.aimOnce host (host.invoke depth) m = .ok t m₁ →
      Eval.readTarget host.check t m₁ = .ok old m₂ →
      right.Repeats host (host.invoke depth) m₂) →
    (settle folding node).eval host (host.invoke depth) m =
      swapOnce host (host.invoke depth) left right m

theorem Target.AimsAt.assigns {t : Target Tree} {left : Tree} (aims : t.AimsAt left)
    (op : AssignOp) (value : Tree) : left.Assigns op value (.assign t op value) where
  aims := ⟨t, rfl, aims⟩
  once host depth folding m repeats := by
    rw [eval_settle host.settles_self]
    exact aims.assign op value repeats

theorem Target.AimsAt.swaps {l r : Target Tree} {left right : Tree} (aims : l.AimsAt left)
    (aims' : r.AimsAt right) : left.Swaps right (.swap l r) where
  aims := ⟨l, r, rfl, aims, aims'⟩
  once host depth folding m repeats repeats' := by
    rw [eval_settle host.settles_self]
    exact aims.swap aims' repeats repeats'

namespace Parse

section

variable {source : Source} {operand : Parse Typed} {s : State}

theorem ends_target (left : Typed) (place : Nat) :
    Ends (target source left place) s (fun t _ => t.AimsAt left.tree) fun _ _ => True := by
  have aimed : Ends (aim source left place) s (fun t _ => t.AimsAt left.tree) fun _ _ => True := by
    unfold aim
    split
    · trivial
    · next b _ tree_eq =>
        rw [tree_eq]
        exact ends_pure fun _ _ _ => iff_of_true rfl trivial
    · next b index tree_eq =>
        rw [tree_eq]
        split
        · next vector => exact ends_pure (Target.aimsAt_element vector index)
        · next other => exact ends_pure (Target.aimsAt_character other index)
    · next b first last tree_eq =>
        rw [tree_eq]
        split
        · exact ends_pure fun _ _ _ => iff_of_true rfl trivial
        · trivial
    · trivial
  refine ends_bind (aimed.mono (fun t _ aims => ?_) fun _ _ => id)
  split
  · exact ends_pure aims
  · trivial

theorem ends_assignment (left : Typed) (op : AssignOp) (value : Typed) (place : Nat) :
    Ends (assignment source left op value place) s
      (fun node _ => left.tree.Assigns op value.tree node.tree) fun _ _ => True := by
  refine ends_bind ((ends_target left place).mono (fun t m aims => ?_) fun _ _ => id)
  split
  · exact ends_pure (aims.assigns op value.tree)
  · trivial

theorem ends_exchange (left right : Typed) (place : Nat) :
    Ends (exchange source left right place) s
      (fun node _ => left.tree.Swaps right.tree node.tree) fun _ _ => True := by
  refine ends_bind ((ends_target left place).mono (fun l m aims => ?_) fun _ _ => id)
  refine ends_bind ((ends_target right place).mono (fun r m' aims' => ?_) fun _ _ => id)
  split
  · exact ends_pure (aims.swaps aims')
  · trivial

/-- The parser reads `node` at some place. -/
def Found (x : Parse Typed) (node : Typed) : Prop := ∃ s s', x s = .ok node s'

/-- What is found as an expression, by its parts. -/
inductive Parsed (operands values : Parse Typed) (node : Typed) : Prop
  | alone (found : Found operands node)
  | assigned {left : Typed} {op : AssignOp} {value : Typed} (found : Found operands left)
      (found' : Found values value) (assigns : left.tree.Assigns op value.tree node.tree)
  | swapped {left right : Typed} (found : Found operands left) (found' : Found operands right)
      (swaps : left.tree.Swaps right.tree node.tree)

theorem ends_expressions (fuel : Nat) :
    Ends (expressions source operand (fuel + 1)) s
      (fun node _ => Parsed (ternary source operand (expressions source operand fuel))
        (expressions source operand fuel) node) fun _ _ => True := by
  have found : ∀ (x : Parse Typed) s, Ends x s (fun node _ => Found x node) fun _ _ => True := by
    intro x s
    unfold Ends
    cases read : x s with
    | ok node s' => exact ⟨s, s', read⟩
    | error d s' => trivial
  rw [expressions]
  refine ends_bind (ends_true.mono (fun here m _ => ?_) fun _ _ => id)
  refine ends_bind ((found _ _).mono (fun left m left_found => ?_) fun _ _ => id)
  refine ends_bind (ends_true.mono (fun ahead m _ => ?_) fun _ _ => id)
  split
  · next op =>
      refine ends_bind (ends_true.mono (fun _ m _ => ?_) fun _ _ => id)
      refine ends_bind ((found _ _).mono (fun value m value_found => ?_) fun _ _ => id)
      exact (ends_assignment left op value here).mono
        (fun node _ assigns => .assigned left_found value_found assigns) fun _ _ => id
  · refine ends_bind (ends_true.mono (fun _ m _ => ?_) fun _ _ => id)
    refine ends_bind ((found _ _).mono (fun right m right_found => ?_) fun _ _ => id)
    exact (ends_exchange left right here).mono
      (fun node _ swaps => .swapped left_found right_found swaps) fun _ _ => id
  · exact ends_pure (.alone left_found)

/-- Assignments and swaps evaluate what is written. Whatever the parser reads as an expression, at
any place of any text, is an operand alone, an assignment to an operand or a swap of two; the target
is what the operand stands for with every index evaluated once, exactly where the index of a
character of a string repeats, and then the whole is the assignment or the swap with every index
evaluated once. An index without effects repeats, on every machine. -/
theorem targets_evaluated_once_iff {fuel : Nat} {node : Typed} {s' : State}
    (read : expressions source operand (fuel + 1) s = .ok node s') :
    Parsed (ternary source operand (expressions source operand fuel))
      (expressions source operand fuel) node ∧
    ∀ (left : Tree) (host : Host), left.Calm host →
      ∀ invoke m, left.Repeats host invoke m :=
  ⟨(ends_expressions fuel).of_ok read, fun _ _ calm => calm.repeats⟩

end

/-- The index that counts is evaluated twice, where one evaluation counts once. -/
theorem targets_evaluated_once_iff_of_counter :
    let w := World.empty.run [.addString "t" "s" "abc", .addScalar "t" "i" 0]
    let text := "s[i += 1] := 'x'"
    let source := Compile.source (w.table "t") {} text
    let operands := operand source 3
    let begin := Compile.start {} [] text.toList
    let host := w.host none 100 1000
    let m := Host.start ⟨.null, 0⟩ w.store
    ∃ node s' left m', expressions source operands (4 + 1) begin = .ok node s' ∧
      ternary source operands (expressions source operands 4) begin = .ok left m' ∧
      Parsed (ternary source operands (expressions source operands 4))
        (expressions source operands 4) node ∧
      (lastState (node.tree.eval host (host.invoke 100) m)).store.scalar ⟨0⟩ = 2 ∧
      (lastState (left.tree.assignOnce host (host.invoke 100) .set (.text "x") m)).store.scalar
        ⟨0⟩ = 1 := by
  intro w text source operands begin host m
  have whole : ((expressions source operands (4 + 1)).run' begin).map
      (fun node => (lastState (node.tree.eval host (host.invoke 100) m)).store.scalar ⟨0⟩) =
        some 2 := by
    decide +kernel
  have single : ((ternary source operands (expressions source operands 4)).run' begin).map
      (fun left => (lastState (left.tree.assignOnce host (host.invoke 100) .set (.text "x")
        m)).store.scalar ⟨0⟩) = some 1 := by
    decide +kernel
  delta EStateM.run' EStateM.run at whole single
  cases read : expressions source operands (4 + 1) begin with
  | error d s' =>
      rw [read] at whole
      cases whole
  | ok node s' =>
      rw [read] at whole
      cases read' : ternary source operands (expressions source operands 4) begin with
      | error d m' =>
          rw [read'] at single
          cases single
      | ok left m' =>
          rw [read'] at single
          exact ⟨node, s', left, m', rfl, rfl, (targets_evaluated_once_iff read).1,
            Option.some.inj whole, Option.some.inj single⟩

end Parse

end MathScript
