import MathScript.Proofs.Frames

/-!
Shifted trees. A shifted tree has every slot so much further up in the frame and is the tree it
was otherwise. It is walked over a kernel as the tree itself is walked over the kernel that
shifts whatever it is handed; and a machine that shifts acts on the slots further up.
-/

namespace MathScript

def Place.shift (k : Nat) : Place → Place
  | .slot i kind => .slot (k + i) kind
  | other => other

def Binding.shift (k : Nat) (b : Binding) : Binding := { b with place := b.place.shift k }

/-- Only what is written back names places. -/
def Callee.shift (k : Nat) : Callee → Callee
  | .generic name native overload writeback =>
      .generic name native overload (writeback.map (Option.map (Binding.shift k)))
  | other => other

/-- The indices stay as they are given. -/
def Target.shift {α : Type} (k : Nat) : Target α → Target α
  | .whole b => .whole (b.shift k)
  | .element b index => .element (b.shift k) index
  | .range b first last => .range (b.shift k) first last

@[simp] theorem Binding.kind_shift (k : Nat) (b : Binding) : (b.shift k).kind = b.kind := by
  obtain ⟨name, place, writable⟩ := b
  cases place <;> rfl

namespace Tree

mutual

def shift (k : Nat) : Tree → Tree
  | .load b => .load (b.shift k)
  | .element b index => .element (b.shift k) (index.shift k)
  | .slice b first last => .slice (b.shift k) (shiftOption k first) (shiftOption k last)
  | .size b => .size (b.shift k)
  | .apply op args => .apply op (shiftList k args)
  | .logic op left right => .logic op (left.shift k) (right.shift k)
  | .call callee args => .call (callee.shift k) (shiftList k args)
  | .branch test yes no => .branch (test.shift k) (yes.shift k) (shiftOption k no)
  | .switch cases default => .switch (shiftCases k cases) (shiftOption k default)
  | .whileLoop test body => .whileLoop (test.shift k) (body.shift k)
  | .forLoop first test step body =>
      .forLoop (shiftOption k first) (shiftOption k test) (shiftOption k step) (body.shift k)
  | .repeatLoop body stop => .repeatLoop (body.shift k) (stop.shift k)
  | .breakLoop payload => .breakLoop (shiftOption k payload)
  | .returnList items => .returnList (shiftList k items)
  | .sequence items => .sequence (shiftList k items)
  | .declare slot shape parts => .declare (k + slot) shape (shiftList k parts)
  | .assign target op value => .assign (shiftTarget k target) op (value.shift k)
  | .swap left right => .swap (shiftTarget k left) (shiftTarget k right)
  | .null => .null
  | .number x => .number x
  | .text s => .text s
  | .continueLoop => .continueLoop

def shiftOption (k : Nat) : Option Tree → Option Tree
  | none => none
  | some t => some (t.shift k)

def shiftList (k : Nat) : List Tree → List Tree
  | [] => []
  | t :: ts => t.shift k :: shiftList k ts

def shiftCases (k : Nat) : List (Tree × Tree) → List (Tree × Tree)
  | [] => []
  | (test, body) :: cases => (test.shift k, body.shift k) :: shiftCases k cases

def shiftTarget (k : Nat) : Target Tree → Target Tree
  | .whole b => .whole (b.shift k)
  | .element b index => .element (b.shift k) (index.shift k)
  | .range b first last => .range (b.shift k) (shiftOption k first) (shiftOption k last)

end

theorem shiftList_eq (k : Nat) (ts : List Tree) : shiftList k ts = ts.map (shift k) := by
  induction ts with
  | nil => rfl
  | cons t ts ih => simp only [shiftList, ih, List.map_cons]

end Tree

/-- The kernel that shifts what it is handed. -/
def Kernel.shift {σ : Type} (k : Nat) (K : Kernel σ) : Kernel σ where
  load b := K.load (b.shift k)
  element b := K.element (b.shift k)
  slice b := K.slice (b.shift k)
  size b := K.size (b.shift k)
  assign t := K.assign (t.shift k)
  readTarget t := K.readTarget (t.shift k)
  writeTarget t := K.writeTarget (t.shift k)
  declare slot := K.declare (k + slot)
  numeric := K.numeric
  generic native overload writeback args :=
    K.generic native overload (writeback.map (Option.map (Binding.shift k)))
      (args.map (Tree.shift k))
  enter := K.enter
  applied op args := K.applied op (args.map (Tree.shift k))
  finished t := K.finished (t.shift k)

namespace Tree

open Flow Kernel

section

variable {σ : Type} {k : Nat} {K : Kernel σ} {host : Host} {invoke : Invoking σ}

theorem walkOption_shift {t : Option Tree}
    (same : ∀ u ∈ t.toList, (u.shift k).walk K host invoke = u.walk (K.shift k) host invoke) :
    walkOption K host invoke (shiftOption k t) = walkOption (K.shift k) host invoke t := by
  cases t with
  | none => rfl
  | some u => exact same u (by simp)

theorem walkIndex_shift {t : Option Tree}
    (same : ∀ u ∈ t.toList, (u.shift k).walk K host invoke = u.walk (K.shift k) host invoke) :
    walkIndex K host invoke (shiftOption k t) = walkIndex (K.shift k) host invoke t := by
  cases t with
  | none => rfl
  | some u => simp only [shiftOption, walkIndex, same u (by simp)]

theorem walkTest_shift {t : Option Tree}
    (same : ∀ u ∈ t.toList, (u.shift k).walk K host invoke = u.walk (K.shift k) host invoke) :
    walkTest K host invoke (shiftOption k t) = walkTest (K.shift k) host invoke t := by
  cases t with
  | none => rfl
  | some u => simp only [shiftOption, walkTest, same u (by simp)]

theorem walkList_shift {ts : List Tree}
    (same : ∀ u ∈ ts, (u.shift k).walk K host invoke = u.walk (K.shift k) host invoke) :
    walkList K host invoke (shiftList k ts) = walkList (K.shift k) host invoke ts := by
  induction ts with
  | nil => rfl
  | cons t ts ih =>
      simp only [shiftList, walkList, same t (by simp),
        ih fun u inside => same u (List.mem_cons_of_mem t inside)]

theorem walkFirst_shift (absent : Value) {ts : List Tree}
    (same : ∀ u ∈ ts, (u.shift k).walk K host invoke = u.walk (K.shift k) host invoke) :
    walkFirst K host invoke absent (shiftList k ts) =
      walkFirst (K.shift k) host invoke absent ts := by
  cases ts with
  | nil => rfl
  | cons t ts => exact same t (by simp)

theorem walkSequence_shift (last : Value) {ts : List Tree}
    (same : ∀ u ∈ ts, (u.shift k).walk K host invoke = u.walk (K.shift k) host invoke) :
    walkSequence K host invoke last (shiftList k ts) =
      walkSequence (K.shift k) host invoke last ts := by
  induction ts generalizing last with
  | nil => rfl
  | cons t ts ih =>
      simp only [shiftList, walkSequence, same t (by simp),
        ih _ fun u inside => same u (List.mem_cons_of_mem t inside)]

theorem walkCases_shift {cases : List (Tree × Tree)}
    (same : ∀ u ∈ cases.flatMap fun (test, body) => [test, body],
      (u.shift k).walk K host invoke = u.walk (K.shift k) host invoke) :
    walkCases K host invoke (shiftCases k cases) = walkCases (K.shift k) host invoke cases := by
  induction cases with
  | nil => rfl
  | cons c cases ih =>
      obtain ⟨test, body⟩ := c
      simp only [List.flatMap_cons, List.mem_append] at same
      simp only [shiftCases, walkCases, same test (by simp), same body (by simp),
        ih fun u inside => same u (.inr inside)]

/-- The target is shifted behind its indices. -/
theorem walkTarget_shift {target : Target Tree}
    (same : ∀ u ∈ target.indices,
      (u.shift k).walk K host invoke = u.walk (K.shift k) host invoke) :
    walkTarget K host invoke (shiftTarget k target) = do
      return (← walkTarget (K.shift k) host invoke target).shift k := by
  cases target with
  | whole b => rfl
  | element b index =>
      simp only [shiftTarget, walkTarget, same index (by simp [Target.indices]), bind_assoc,
        pure_bind, Target.shift]
  | range b first last =>
      simp only [Target.indices, List.mem_append] at same
      simp only [shiftTarget, walkTarget, walkIndex_shift fun u inside => same u (.inl inside),
        walkIndex_shift fun u inside => same u (.inr inside), bind_assoc, pure_bind,
        Target.shift]

theorem call_shift (callee : Callee) (args : List Tree) (values : Flow σ (List Value)) :
    K.call host invoke (callee.shift k) (args.map (shift k)) values =
      (K.shift k).call host invoke callee args values := by
  cases callee <;> rfl

theorem swap_shift (left right : Flow σ (Target Float)) :
    (K.swap (do return (← left).shift k) (do return (← right).shift k)) =
      (K.shift k).swap left right := by
  simp only [Kernel.swap, bind_assoc, pure_bind]
  rfl

end

/-- A shifted tree is walked as the tree over the kernel that shifts. -/
theorem walk_shift {σ : Type} (k : Nat) (K : Kernel σ) (host : Host) (invoke : Invoking σ)
    (t : Tree) : (t.shift k).walk K host invoke = t.walk (K.shift k) host invoke := by
  induction t using children_induction with
  | step t ih =>
      rw [walk.eq_def, walk.eq_def (K.shift k)]
      change K.closing (t.shift k) _ = K.closing (t.shift k) _
      congr 1
      -- One hypothesis for each child, in the form the lemmas above ask for.
      cases t <;> simp only [children, List.mem_append, List.mem_cons, List.not_mem_nil,
        or_false, forall_eq, or_imp, forall_and] at ih
      case null | number | text | load | size | continueLoop => rfl
      case element b index =>
          simp only [shift, ih]
          rfl
      case slice b first last =>
          simp only [shift, walkIndex_shift ih.1, walkIndex_shift ih.2]
          rfl
      case apply op args =>
          simp only [shift, walkList_shift ih]
          rw [shiftList_eq]
          rfl
      case logic op left right => simp only [shift, ih]
      case call callee args =>
          simp only [shift, walkList_shift ih]
          rw [shiftList_eq, call_shift]
      case branch test yes no => simp only [shift, ih.1, ih.2.1, walkOption_shift ih.2.2]
      case switch cases default =>
          simp only [shift, walkCases_shift ih.1, walkOption_shift ih.2]
      case whileLoop test body => simp only [shift, ih]
      case forLoop first test step body =>
          obtain ⟨⟨⟨firsts, tests⟩, steps⟩, bodies⟩ := ih
          simp only [shift, walkOption_shift firsts, walkTest_shift tests,
            walkOption_shift steps, bodies]
      case repeatLoop body stop => simp only [shift, ih]
      case breakLoop payload => simp only [shift, walkIndex_shift ih]
      case returnList items => simp only [shift, walkList_shift ih]
      case sequence items => simp only [shift, walkSequence_shift _ ih]
      case declare slot shape parts =>
          simp only [shift, walkList_shift ih, walkFirst_shift _ ih]
          rfl
      case assign target op value =>
          simp only [shift, ih.2, walkTarget_shift ih.1, bind_assoc, pure_bind]
          rfl
      case swap left right =>
          simp only [shift, walkTarget_shift ih.1, walkTarget_shift ih.2, swap_shift]

end Tree

/-! ### Acts further up -/

namespace Acts

variable {σ : Type}

def shift (k : Nat) (a : Acts σ) : Acts σ where
  read p := a.read (p.shift k)
  setScalar p := a.setScalar (p.shift k)
  modifyVector p := a.modifyVector (p.shift k)
  modifyString p := a.modifyString (p.shift k)
  declare slot := a.declare (k + slot)
  numeric := a.numeric
  ask := a.ask
  report b := a.report (b.shift k)

variable (k : Nat) (a : Acts σ)

theorem element?_shift (b : Binding) (x : Float) :
    a.element? (b.shift k) x = (a.shift k).element? b x := rfl

theorem writeParam_shift (b : Binding) (p : Param) :
    a.writeParam (b.shift k) p = (a.shift k).writeParam b p := by
  simp only [writeParam, Binding.kind_shift]
  rfl

theorem writeBack_shift (params : List Param) (bindings : List (Option Binding)) :
    a.writeBack params (bindings.map (Option.map (Binding.shift k))) =
      (a.shift k).writeBack params bindings := by
  induction params generalizing bindings with
  | nil => rfl
  | cons p params ih =>
      cases bindings with
      | nil => rfl
      | cons b bindings =>
          cases b with
          | none => exact ih bindings
          | some b =>
              simp only [List.map_cons, Option.map_some, writeBack, writeParam_shift, ih]

theorem assign_shift (t : Target Float) :
    a.assign (t.shift k) = (a.shift k).assign t := by
  funext op v
  cases t with
  | whole b =>
      simp only [Target.shift, assign, assignWhole, Binding.kind_shift]
      rfl
  | element b x => rfl
  | range b x y => rfl

/-- Who acts further up takes the steps of a kernel that shifts. -/
theorem kernel_shift (enter : Program → List Float → Flow σ Value → Flow σ Float) :
    (a.kernel enter).shift k = (a.shift k).kernel enter := by
  have elements : (fun b : Binding => a.element (b.shift k)) = (a.shift k).element := by
    funext b x
    simp only [element, Binding.kind_shift, element?_shift]
    rfl
  have slices : (fun b : Binding => a.slice (b.shift k)) = (a.shift k).slice := by
    funext b x y
    simp only [slice, Binding.kind_shift]
    rfl
  have sizes : (fun b : Binding => a.size (b.shift k)) = (a.shift k).size := by
    funext b
    simp only [size, Binding.kind_shift]
    rfl
  have assigns : (fun t : Target Float => a.assign (t.shift k)) = (a.shift k).assign :=
    funext (a.assign_shift k)
  have reads : (fun t : Target Float => a.readTarget (t.shift k)) = (a.shift k).readTarget := by
    funext t
    cases t <;> rfl
  have writes : (fun t : Target Float => a.writeTarget (t.shift k)) =
      (a.shift k).writeTarget := by
    funext t v
    cases t with
    | whole b => cases v <;> rfl
    | element b x => rfl
    | range b x y => rfl
  have generics : (fun native overload (writeback : List (Option Binding)) (_ : List Tree) values =>
      a.callGeneric native overload (writeback.map (Option.map (Binding.shift k))) values) =
        fun native overload writeback _ values =>
          (a.shift k).callGeneric native overload writeback values := by
    funext native overload writeback _ values
    simp only [callGeneric, writeBack_shift]
    rfl
  simp only [Kernel.shift, kernel, elements, slices, sizes, assigns, reads, writes, generics]
  rfl

end Acts

/-- A machine that acts further up has its slots there. -/
theorem Machine.shift_framed (k : Nat) (host : Host) :
    (Acts.machine host).shift k =
      Acts.framed (fun i m => .ok (m.slot (k + i)) m) (fun i => change (k + i)) (fun x => x)
        host := by
  rw [← framed_eq]
  apply Acts.ext
  · funext p
    cases p <;> rfl
  · funext p x
    cases p <;> rfl
  · funext p f
    cases p <;> rfl
  · funext p f
    cases p <;> rfl
  all_goals rfl

end MathScript
