import MathScript.Proofs.Lockstep

/-!
What the steps of a node keep. A property of machines that is kept while no place changes, and by
whatever is written to the places that a node writes, is kept by all that the node itself does. No
step but a declaration changes the length of a vector.
-/

namespace MathScript

open Machine

/-! ### Places that are written -/

/-- Places that share what they hold have one storage. -/
def Place.storage : Place → Place
  | .slot i _ => .slot i .scalar
  | p => p

theorem Place.shares_iff {p q : Place} : p.Shares q ↔ p.storage = q.storage := by
  cases p <;> cases q <;> simp [Shares, storage]

instance (p q : Place) : Decidable (p.Shares q) := decidable_of_iff _ Place.shares_iff.symm

/-- The places a node itself writes. -/
def Tree.written : Tree → List Place
  | .assign target _ _ => [target.binding.place]
  | .swap left right => [left.binding.place, right.binding.place]
  | .call callee _ => callee.bindings.map Binding.place
  | .declare slot shape _ => [.slot slot shape.kind]
  | _ => []

/-! ### Steps -/

namespace Machine

/-- A property that is kept while no place changes. -/
def Placewise (I : Machine → Prop) : Prop := ∀ m m', Still (fun _ => False) m m' → I m → I m'

/-- A property that is kept by what is written to a place. -/
structure Bears (I : Machine → Prop) (p : Place) : Prop where
  setScalar : ∀ m x, I m → I (m.setScalar p x)
  modifyVector : ∀ m f, (∀ xs : Array Float, (f xs).size = xs.size) → I m → I (m.modifyVector p f)
  modifyString : ∀ m f, I m → I (m.modifyString p f)

end Machine

namespace Eval

variable {I : Machine → Prop} {α : Type}

theorem keeps_modify {f : Machine → Machine} (kept : ∀ m, I m → I (f m)) :
    Keeps I (modify f : Eval PUnit) :=
  fun m held => ends_modify (kept m held)

theorem keeps_look {f : Machine → α} : Keeps I (fun m => .ok (f m) m : Eval α) :=
  fun _ held => held

section

variable (placewise : Placewise I)

include placewise

theorem keeps_of_stays {x : Eval α} {value : α → Prop}
    (stays : ∀ m, Stays (fun _ => False) x m value) : Keeps I x :=
  fun m held => (stays m).mono (fun _ m' after => placewise m m' after.1 held)
    fun _ m' still => placewise m m' still held

theorem keeps_element? (check : Option Check) (b : Binding) (x : Float) :
    Keeps I (element? check b x) :=
  keeps_of_stays placewise fun _ => stays_element? check b x

theorem keeps_readTarget (check : Option Check) (target : Target Float) :
    Keeps I (readTarget check target) := by
  cases target with
  | whole b => exact keeps_bind keeps_look fun _ => keeps_pure _
  | element b x => exact keeps_bind (keeps_element? placewise check b x) fun _ => keeps_pure _
  | range b first last => exact keeps_bind keeps_look fun _ => keeps_pure _

end

section

variable {b : Binding} (bears : Bears I b.place)

include bears

theorem keeps_assignWhole (op : AssignOp) (v : Value) : Keeps I (assignWhole b op v) := by
  unfold assignWhole
  cases b.kind with
  | scalar =>
      exact keeps_bind keeps_look fun _ =>
        keeps_bind (keeps_modify fun m => bears.setScalar m _) fun _ => keeps_pure _
  | vector =>
      exact keeps_bind (keeps_modify fun m => bears.modifyVector m _ fun xs =>
        size_combineVector op xs v) fun _ => keeps_bind keeps_look fun _ => keeps_pure _
  | string =>
      exact keeps_bind (keeps_modify fun m => bears.modifyString m _) fun _ =>
        keeps_bind keeps_look fun _ => keeps_pure _

theorem keeps_setElement (index x : Float) : Keeps I (setElement b index x) :=
  keeps_modify fun m => bears.modifyVector m _ fun xs => size_setElementAt xs _ x

end

section

variable {target : Target Float} (bears : Bears I target.binding.place)

include bears

theorem keeps_assign (placewise : Placewise I) (check : Option Check) (op : AssignOp) (v : Value) :
    Keeps I (assign check target op v) := by
  cases target with
  | whole b => exact keeps_assignWhole bears op v
  | element b index =>
      refine keeps_bind (keeps_element? placewise check b index) fun current => ?_
      cases current with
      | none => exact keeps_pure _
      | some x => exact keeps_bind (keeps_setElement bears index _) fun _ => keeps_pure _
  | range b first last =>
      exact keeps_bind (keeps_modify fun m => bears.modifyString m _) fun _ =>
        keeps_bind keeps_look fun _ => keeps_pure _

theorem keeps_writeTarget (v : Value) : Keeps I (writeTarget target v) := by
  cases target with
  | whole b =>
      refine keeps_modify fun m => ?_
      cases v with
      | null | scalar => exact bears.setScalar m _
      | vector new => exact bears.modifyVector m _ fun old => Range.size_refill old new
      | string new => exact bears.modifyString m _
  | element b index => exact keeps_setElement bears index _
  | range b first last => exact keeps_modify fun m => bears.modifyString m _

end

section

variable {writeback : List (Option Binding)}
  (bears : ∀ b ∈ writeback.filterMap id, Bears I b.place)

include bears

theorem kept_writeBack (params : List Param) (m : Machine) (held : I m) :
    I (writeBack params writeback m) := by
  induction params generalizing writeback m with
  | nil => cases writeback <;> exact held
  | cons x params ih =>
      match writeback with
      | [] => exact held
      | none :: writeback =>
          rw [writeBack]
          refine ih ?_ m held
          exact bears
      | some b :: writeback =>
          obtain ⟨own, others⟩ := List.forall_mem_cons.mp bears
          unfold writeBack
          refine ih others _ ?_
          split
          · exact own.setScalar m _ held
          · exact own.modifyVector m _ (fun old => Range.size_refill old _) held
          · exact own.modifyString m _ held
          · exact held

theorem keeps_callGeneric (placewise : Placewise I) (host : Host) (native overload : Nat)
    (args : List Value) : Keeps I (callGeneric host native overload writeback args) := by
  refine keeps_bind (keeps_of_stays placewise fun _ => stays_ask host native overload args)
    fun reply => ?_
  match reply with
  | none => exact keeps_pure _
  | some ⟨.ok x, params, _⟩ =>
      exact keeps_bind (keeps_modify (kept_writeBack bears params)) fun _ => keeps_pure _
  | some ⟨.error f, _, _⟩ => exact keeps_throw _

end

end Eval

/-- What a node does itself keeps what the places it writes bear. -/
theorem Machine.inStepAt_of_bears (host : Host) {I : Machine → Prop} (placewise : Placewise I)
    {t : Tree} (bears : t.declaration? = none → ∀ p ∈ t.written, Bears I p)
    (declares : ∀ slot shape, t.declaration? = some (slot, shape) → ∀ v, shape.Holds v →
      ∀ m, I m → I (m.declare slot v)) :
    (kernel host).InStepAt (kernel host)
      (fun {α} (x : Eval α) (_ : Eval α) => Keeps I x) t := by
  cases t with
  | load b => exact Eval.keeps_look
  | element b index =>
      exact fun x => Eval.keeps_of_stays placewise fun _ => Eval.stays_element host.check b x
  | slice b first last =>
      exact fun x y => Eval.keeps_of_stays placewise fun _ => Eval.stays_slice host.check b x y
  | size b => exact Eval.keeps_of_stays placewise fun _ => Eval.stays_size b
  | apply op args => exact fun vs => keeps_pure ()
  | call callee args =>
      cases callee with
      | scalar name native | vararg name native =>
          exact fun vs =>
            Eval.keeps_of_stays placewise fun _ => Eval.stays_callNumeric host native vs
      | generic name native overload writeback =>
          exact fun vs => Eval.keeps_callGeneric
            (fun b inside => bears rfl b.place (List.mem_map_of_mem inside)) placewise host native
            overload vs
      | composed name definition => trivial
  | declare slot shape parts =>
      exact fun v holds => Eval.keeps_modify (declares slot shape rfl v holds)
  | assign target op value =>
      intro t same v
      have own : Bears I t.binding.place := same ▸ bears rfl _ (by simp [Tree.written])
      exact Eval.keeps_assign own placewise host.check op v
  | swap left right =>
      intro t same
      have own : Bears I t.binding.place := by
        rcases same with same | same
        · exact same ▸ bears rfl _ (by simp [Tree.written])
        · exact same ▸ bears rfl _ (by simp [Tree.written])
      exact ⟨Eval.keeps_readTarget placewise host.check t, fun v => Eval.keeps_writeTarget own v⟩
  | null | number | text | logic | branch | switch | whileLoop | forLoop | repeatLoop | breakLoop
  | continueLoop | returnList | sequence => trivial

end MathScript
