import MathScript.Proofs.Record

/-!
What recording leaves alone. A tape erases to its machine, and a recorded walk ends as the walk
of the machine does. A tape shadows another if both have one machine and one frame and all that
is logged on the first is logged on the second, up to folding; the recorded walk of a settled
tree keeps shadowing that of the tree.
-/

namespace MathScript

namespace Tape

/-! ### Erasing the log -/

def Erases (t : Tape) (m : Machine) : Prop := t.machine = m

theorem lift_erases {α : Type} (x : Eval α) : Agree Erases (lift x) x := by
  rintro t _ rfl
  unfold lift
  cases x t.machine <;> exact ⟨rfl, rfl⟩

theorem note_erases {α : Type} {x : Flow Tape α} {y : Eval α} (e : Event)
    (same : Agree Erases x y) :
    Agree Erases (do
      note e
      x) y :=
  fun t m erases => same { t with log := ⟨e, t.machine.locals, t.frame⟩ :: t.log } m erases

theorem touching_erases {α : Type} (b : Binding) (use : Kind) (writes : Bool) (x : Eval α) :
    Agree Erases (touching b use writes x) x := by
  have behind : ∀ a : α, Agree Erases (do
      note (.touch b use writes)
      return a) (pure a : Eval α) := fun a => note_erases _ (agree_pure a)
  apply note_erases _
  simpa using agree_bind (lift_erases x) behind

theorem writeBack_step (p : Param) (params : List Param) (b : Binding)
    (bindings : List (Option Binding)) (m : Machine) :
    Eval.writeBack (p :: params) (some b :: bindings) m =
      Eval.writeBack params bindings (Eval.writeBack [p] [some b] m) := by
  simp only [Eval.writeBack]

theorem writeBack_other_kind {p : Param} {b : Binding} (different : p.kind ≠ b.kind)
    (m : Machine) : Eval.writeBack [p] [some b] m = m := by
  simp only [Eval.writeBack]
  cases kind_eq : b.kind <;> cases p <;> simp_all [Param.kind]

theorem writeBack_erases (params : List Param) (bindings : List (Option Binding)) :
    Agree Erases (writeBack params bindings) (modify (Eval.writeBack params bindings)) := by
  induction params generalizing bindings with
  | nil =>
      rintro t _ rfl
      exact ⟨rfl, rfl⟩
  | cons p params ih =>
      cases bindings with
      | nil =>
          rintro t _ rfl
          exact ⟨rfl, rfl⟩
      | cons b bindings =>
          cases b with
          | none => exact ih bindings
          | some b =>
              by_cases same : p.kind = b.kind
              -- The machine writes all parameters back at once, the tape one at a time.
              · have split : (modify (Eval.writeBack (p :: params) (some b :: bindings)) :
                    Eval PUnit) = modify (Eval.writeBack [p] [some b]) >>= fun _ =>
                      modify (Eval.writeBack params bindings) := by
                  funext m
                  exact congrArg (EStateM.Result.ok ()) (writeBack_step p params b bindings m)
                simp only [writeBack, same, if_true, split]
                exact agree_bind (touching_erases b _ _ _) fun _ => ih bindings
              · have skipped : Eval.writeBack (p :: params) (some b :: bindings) =
                    Eval.writeBack params bindings := by
                  funext m
                  rw [writeBack_step, writeBack_other_kind same]
                simp only [writeBack, same, if_false, skipped]
                exact ih bindings

theorem declare_erases (slot : Nat) (kind : Kind) (v : Value) :
    Agree Erases (declare slot kind v) (modify fun m => m.declare slot v) := by
  rintro t _ rfl
  exact ⟨rfl, rfl⟩

theorem callGeneric_erases (host : Host) (native overload : Nat)
    (writeback : List (Option Binding)) (args : List Tree) (values : List Value) :
    Agree Erases (callGeneric host native overload writeback args values)
      (Eval.callGeneric host native overload writeback values) := by
  refine note_erases _ (agree_bind (lift_erases _) fun reply => ?_)
  -- The note in front leaves the machine as it is, so both sides ask alike.
  match reply with
  | none => exact agree_pure _
  | some ⟨.error f, _, _⟩ => exact agree_throw _
  | some ⟨.ok x, params, _⟩ =>
      exact agree_bind (writeBack_erases params writeback) fun _ => agree_pure _

theorem kernel_erases (host : Host) :
    (kernel host).Mirrors (Machine.kernel host) Erases where
  load b := touching_erases b _ _ _
  element b _ := touching_erases b _ _ _
  slice b _ _ := touching_erases b _ _ _
  size b := touching_erases b _ _ _
  assign t _ _ := touching_erases t.binding _ _ _
  readTarget t := touching_erases t.binding _ _ _
  writeTarget t _ := touching_erases t.binding _ _ _
  declare := declare_erases
  numeric native vs := lift_erases _
  generic _ native overload writeback _ vs :=
    callGeneric_erases host native overload writeback _ vs
  enter p q args x y size_eq same := by
    have frame_eq : Host.frame p args = Host.frame q args := by simp only [Host.frame, size_eq]
    simp only [kernel, Machine.kernel, Host.enter, ← frame_eq]
    apply Flow.agree_enter same
    · rintro t _ rfl
      rfl
    · rintro t _ t' _ rfl rfl
      rfl
  applied _ _ _ _ := note_erases _ (agree_pure ())
  finished _ _ _ := note_erases _ (agree_pure ())
  literal _ t := ⟨_, rfl, fun _ erases => erases⟩
  constant b x stands := by
    rintro t _ rfl
    refine ⟨t.machine, ?_, rfl⟩
    simp only [Machine.kernel, Eval.load, Machine.read, stands]
  operation _ _ _ := silent_pure ()
  node _ _ := silent_pure ()

/-- A recorded walk ends as the evaluation does, and leaves the same machine. -/
theorem walk_erases (host : Host) (depth : Nat) (t : Tree) :
    Agree Erases (t.walk (kernel host) host ((kernel host).invoke host depth))
      (t.eval host (host.invoke depth)) := by
  have erases := kernel_erases host
  have same := erases.walk_alike host.settles_self
    (fun name p q args settled => erases.invoke_alike host.settles_self depth name args settled)
    t false
  rwa [Machine.invoke_kernel, Machine.walk_kernel] at same

end Tape

theorem Host.record_erases (host : Host) (program : Program) (store : Store) :
    SameEnd Tape.Erases (host.record program store)
      (program.tree.eval host (host.invoke host.limit) ⟨store, frame program [], #[]⟩) :=
  Tape.walk_erases host host.limit program.tree (Tape.blank program store) _ rfl

/-! ### Folding and the log -/

def Event.settle (folding : Bool) : Event → Event
  | .apply op args values => .apply op (args.map (Tree.settle folding)) values
  | .offer native overload args values =>
      .offer native overload (args.map (Tree.settle folding)) values
  | .finish node v => .finish (node.settle folding) v
  | other => other

def Moment.settle (folding : Bool) (m : Moment) : Moment :=
  { m with event := m.event.settle folding }

/-- What is logged on the left is logged on the right, up to folding. -/
def Echoes (left right : List Moment) : Prop :=
  ∀ m ∈ left, ∃ folding, ∃ n ∈ right, m = n.settle folding

namespace Tape

structure Shadows (left right : Tape) : Prop where
  machine : left.machine = right.machine
  frame : left.frame = right.frame
  log : Echoes left.log right.log

theorem lift_shadows {α : Type} (x : Eval α) : Agree Shadows (lift x) (lift x) := by
  intro s t shadows
  unfold lift
  rw [shadows.machine]
  cases x t.machine <;> exact ⟨rfl, rfl, shadows.frame, shadows.log⟩

theorem note_shadows (folding : Bool) (e : Event) :
    Agree Shadows (note (e.settle folding)) (note e) := by
  intro s t shadows
  refine ⟨rfl, shadows.machine, shadows.frame, ?_⟩
  intro m member
  -- The new moment echoes the new one on the right, the old ones what they echoed before.
  rcases List.mem_cons.mp member with rfl | old
  · refine ⟨folding, _, List.mem_cons_self, ?_⟩
    simp only [Moment.settle, shadows.machine, shadows.frame]
  · obtain ⟨folding, n, inside, echo⟩ := shadows.log m old
    exact ⟨folding, n, List.mem_cons_of_mem _ inside, echo⟩

/-- What is noted on the right alone does not matter. -/
theorem silent_note (e : Event) : Silent Shadows (note e) () := by
  intro s t shadows
  refine ⟨_, rfl, shadows.machine, shadows.frame, fun m member => ?_⟩
  obtain ⟨folding, n, inside, echo⟩ := shadows.log m member
  exact ⟨folding, n, List.mem_cons_of_mem _ inside, echo⟩

theorem touching_shadows {α : Type} (b : Binding) (use : Kind) (writes : Bool) (x : Eval α) :
    Agree Shadows (touching b use writes x) (touching b use writes x) :=
  agree_bind (note_shadows false (.touch b use writes)) fun _ =>
    agree_bind (lift_shadows x) fun a =>
      agree_bind (note_shadows false (.touch b use writes)) fun _ => agree_pure a

theorem writeBack_shadows (params : List Param) (bindings : List (Option Binding)) :
    Agree Shadows (writeBack params bindings) (writeBack params bindings) := by
  induction params generalizing bindings with
  | nil => exact agree_pure ()
  | cons p params ih =>
      cases bindings with
      | nil => exact agree_pure ()
      | cons b bindings =>
          cases b with
          | none => exact ih bindings
          | some b =>
              by_cases same : p.kind = b.kind
              · simp only [writeBack, same, if_true]
                exact agree_bind (touching_shadows b _ _ _) fun _ => ih bindings
              · simp only [writeBack, same, if_false]
                exact ih bindings

theorem declare_shadows (slot : Nat) (kind : Kind) (v : Value) :
    Agree Shadows (declare slot kind v) (declare slot kind v) := by
  refine agree_bind (note_shadows false (.place slot kind)) fun _ =>
    agree_bind (lift_shadows _) fun _ => ?_
  intro s t shadows
  exact ⟨rfl, shadows.machine, by simp only [shadows.frame], shadows.log⟩

variable {left right : Host}

theorem callGeneric_shadows (hosts : left.Settles right) (folding : Bool)
    (native overload : Nat) (writeback : List (Option Binding)) (args : List Tree)
    (values : List Value) :
    Agree Shadows
      (callGeneric left native overload writeback (args.map (Tree.settle folding)) values)
      (callGeneric right native overload writeback args values) := by
  apply agree_bind (note_shadows folding (.offer native overload args values))
  intro _
  rw [Machine.ask_eq hosts.natives]
  apply agree_bind (lift_shadows _)
  intro reply
  match reply with
  | none => exact agree_pure _
  | some ⟨.error f, _, _⟩ => exact agree_throw _
  | some ⟨.ok x, params, _⟩ =>
      exact agree_bind (writeBack_shadows params writeback) fun _ => agree_pure _

theorem kernel_shadows (hosts : left.Settles right) :
    (kernel left).Mirrors (kernel right) Shadows where
  load b := touching_shadows b _ _ _
  element b x := by
    simp only [kernel, hosts.check]
    exact touching_shadows b _ _ _
  slice b x y := by
    simp only [kernel, hosts.check]
    exact touching_shadows b _ _ _
  size b := touching_shadows b _ _ _
  assign t op v := by
    simp only [kernel, hosts.check]
    exact touching_shadows t.binding _ _ _
  readTarget t := by
    simp only [kernel, hosts.check]
    exact touching_shadows t.binding _ _ _
  writeTarget t _ := touching_shadows t.binding _ _ _
  declare := declare_shadows
  numeric native vs := by
    simp only [kernel, Machine.callNumeric_eq hosts.natives]
    exact lift_shadows _
  generic folding native overload writeback args vs :=
    callGeneric_shadows hosts folding native overload writeback args vs
  enter p q args x y size_eq same := by
    have into_shadows : ∀ s t, Shadows s t → Shadows (into p args s) (into q args t) := by
      intro s t shadows
      refine ⟨?_, ?_, shadows.log⟩
      · simp only [into, Host.frame, size_eq, shadows.machine]
      · simp only [into, size_eq]
    apply Flow.agree_enter same into_shadows
    intro s t s' t' before after
    refine ⟨?_, ?_, after.log⟩
    · simp only [back, before.machine, after.machine]
    · simp only [back, before.frame]
  applied folding op args vs := note_shadows folding (.apply op args vs)
  finished folding t v := note_shadows folding (.finish t v)
  literal x s := by
    -- The left log only gets shorter when the literal is forgotten.
    refine ⟨_, rfl, fun t shadows => ⟨shadows.machine, shadows.frame, fun m member => ?_⟩⟩
    exact shadows.log m (List.mem_cons_of_mem _ member)
  constant b x stands := by
    refine silent_bind (silent_note _) (silent_bind (a := .scalar x) ?_
      (silent_bind (silent_note _) (silent_pure _)))
    intro s t shadows
    refine ⟨t, ?_, shadows⟩
    simp only [lift, Eval.load, Machine.read, stands]
  operation op args vs := silent_note _
  node t v := silent_note _

end Tape

/-- What is logged of a settled program is logged of the program. -/
theorem Host.log_echoes {left right : Host} (hosts : left.Settles right) {p q : Program}
    (settled : p.Settles q) (store : Store) : Echoes (left.log p store) (right.log q store) := by
  have mirrors := Tape.kernel_shadows hosts
  obtain ⟨folding, tree_eq, size_eq⟩ := settled
  have same := mirrors.walk_alike hosts
    (fun name p q args settled => mirrors.invoke_alike hosts left.limit name args settled)
    q.tree folding
  rw [← tree_eq, hosts.limit] at same
  have start : Tape.Shadows (Tape.blank p store) (Tape.blank q store) := by
    refine ⟨?_, ?_, fun m member => ?_⟩
    · simp only [Tape.blank, frame, size_eq]
    · simp only [Tape.blank, size_eq]
    · simp [Tape.blank] at member
  have ends := same _ _ start
  unfold log record
  rw [hosts.limit]
  cases end_eq : p.tree.walk (Tape.kernel left) left
      ((Tape.kernel left).invoke left right.limit) (Tape.blank p store) <;>
    cases end_eq' : q.tree.walk (Tape.kernel right) right
      ((Tape.kernel right).invoke right right.limit) (Tape.blank q store) <;>
    simp only [end_eq, end_eq', SameEnd] at ends
  · exact ends.2.log
  · exact ends.2.log

end MathScript
