import MathScript.Proofs.Steady

/-!
The steps of the recording kernel. Each leads from a good state to a good state, whether it
completes or stops, given that the bindings it works on are in scope; a declaration brings its
slot into use.
-/

namespace MathScript

open Tape Tree

section

variable {offers : Grant → Prop} {layout : List Slot} {live live' : List Nat} {α : Type}
  {s : Tape}

theorem note_steady {e : Event}
    (kept : Good offers layout live s →
      Kept offers (⟨e, s.machine.locals, s.frame⟩ :: s.log)) :
    SteadyAt offers layout live s (note e) fun _ _ => True := by
  intro good
  refine ends_modify ⟨⟨⟨?_, kept good⟩, List.subset_cons_self _ _⟩, trivial⟩
  exact good.sits.still fun _ => rfl

theorem note_touch_steady {b : Binding} {writes : Bool} (scope : b.InScope offers layout live)
    (writable : writes = true → b.writable = true) :
    SteadyAt offers layout live s (note (.touch b b.kind writes)) fun _ _ => True :=
  note_steady fun good => good.kept.cons (good.sits.inPlace scope writable) writable
    (by trivial) (fun _ => by trivial) (fun _ => by trivial) fun astray => False.elim astray

theorem lift_steady {x : Eval α} {value : α → Prop}
    (stays : Good offers layout live s → Stays (fun _ => True) x s.machine value) :
    SteadyAt offers layout live s (lift x) fun a _ => value a := by
  intro good
  -- A step of the machine adds nothing to the log and leaves the frame as it is.
  have after := stays good
  unfold Stays Ends at after
  unfold Ends lift
  have sub := List.Subset.refl s.log
  cases end_eq : x s.machine with
  | ok a m =>
      rw [end_eq] at after
      exact ⟨⟨⟨good.sits.still after.1.kinds, good.kept⟩, sub⟩, after.2⟩
  | error e m =>
      rw [end_eq] at after
      exact ⟨⟨good.sits.still after.kinds, good.kept⟩, sub⟩

theorem touching_steady {b : Binding} {use : Kind} {writes : Bool} {x : Eval α}
    {value : α → Prop} (scope : b.InScope offers layout live) (same : use = b.kind)
    (writable : writes = true → b.writable = true)
    (stays : ∀ m : Machine, m.Has b → Stays (fun _ => True) x m value) :
    SteadyAt offers layout live s (touching b use writes x) fun a _ => value a := by
  subst same
  apply (note_touch_steady scope writable).bind
  intro _ s' _ _
  have step : SteadyAt offers layout live s' (lift x) fun a _ => value a :=
    lift_steady fun good => stays s'.machine (good.sits.has scope)
  apply step.bind
  intro a s'' _ told
  -- Still in place: the step has left the slot with a value of its kind.
  exact (note_touch_steady scope writable).bind fun _ _ _ _ => steadyAt_pure told

theorem writeBack_steady (params : List Param) {bindings : List (Option Binding)}
    (scope : ∀ b ∈ bindings.filterMap id, b.InScope offers layout live ∧ b.writable = true) :
    SteadyAt offers layout live s (writeBack params bindings) fun _ _ => True := by
  induction params generalizing bindings s with
  | nil => exact steadyAt_pure trivial
  | cons p params ih =>
      cases bindings with
      | nil => exact steadyAt_pure trivial
      | cons b bindings =>
          cases b with
          | none => exact ih (by simpa using scope)
          | some b =>
              simp only [List.filterMap_cons, id, List.forall_mem_cons] at scope
              simp only [writeBack]
              split
              · next same =>
                  have written : SteadyAt offers layout live s
                      (touching b p.kind true (modify (Eval.writeBack [p] [some b])))
                      fun _ _ => True :=
                    touching_steady scope.1.1 same (fun _ => scope.1.2)
                      fun m has => (Eval.stays_writeBack has same).writing fun _ _ => trivial
                  exact written.bind fun _ _ _ _ => ih scope.2
              · exact ih scope.2

theorem callGeneric_steady (host : Host) {native overload : Nat}
    {writeback : List (Option Binding)} {args : List Tree} {values : List Value}
    (scope : ∀ b ∈ writeback.filterMap id, b.InScope offers layout live ∧ b.writable = true)
    (chosen : ∃ name signature, offers (.call name (.generic native signature)) ∧
      signature.resolve (args.map Tree.kind) = some overload)
    (aligned : values.length = args.length)
    (fed : Clean s.log → ∀ v a, (v, a) ∈ values.zip args → v.Fits a.kind) :
    SteadyAt offers layout live s
      (callGeneric host native overload writeback args values) (Suits .scalar) := by
  have offered : SteadyAt offers layout live s (note (.offer native overload args values))
      fun _ _ => True :=
    note_steady fun good => good.kept.cons (by trivial) (by trivial) ⟨aligned, chosen⟩
      (fun _ => by trivial) (fun clean => fed (clean.sub (List.subset_cons_self _ _))) fun astray => False.elim astray
  apply offered.bind
  intro _ s' _ _
  refine (lift_steady fun _ => Eval.stays_ask host native overload values).bind
    fun reply s'' _ _ => ?_
  match reply with
  | none => exact steadyAt_pure fun _ => .inl rfl
  | some ⟨.error f, _, _⟩ => exact steadyAt_throw
  | some ⟨.ok x, params, _⟩ =>
      exact (writeBack_steady params scope).bind fun _ _ _ _ =>
        steadyAt_pure (suits_of_kind rfl)

theorem declare_ends {slot : Nat} {kind : Kind} {v : Value} (good : Good offers layout live s)
    (laid : layout[slot]?.map Slot.kind = some kind) (known : v.kind? = some kind) :
    Ends (declare slot kind v) s (fun _ s' => Step offers layout (slot :: live) s s')
      fun _ s' => Step offers layout live s s' := by
  have inside := inside_layout laid
  have bound := (good.sits.bound slot).mpr inside
  have room : slot < s.machine.locals.size := by
    simpa [Machine.kindAt] using bound
  -- The one step that may change the kind of what a slot holds.
  have held : ∀ i, (s.machine.declare slot v).kindAt i =
      if i = slot then some (some kind) else s.machine.kindAt i := by
    intro i
    simp only [Machine.kindAt, Machine.declare, Array.getElem?_setIfInBounds]
    by_cases same : i = slot
    · subst same
      simp [room, known]
    · simp [same, Ne.symm same]
  have placed : Moment.InPlace ⟨.place slot kind, s.machine.locals, s.frame⟩ :=
    ⟨by simpa [good.sits.room] using inside, room⟩
  refine ⟨⟨⟨good.sits.room, ?_, ?_, ?_⟩, ?_⟩, List.subset_cons_self _ _⟩
  · intro i
    rw [held]
    by_cases same : i = slot
    · simpa [same] using inside
    · simpa [same] using good.sits.bound i
  · intro i other found
    rw [held] at found
    by_cases same : i = slot
    · simp only [same, if_true, Option.some.injEq] at found
      subst found
      subst same
      exact ⟨laid, List.mem_cons_self⟩
    · simp only [same, if_false] at found
      obtain ⟨there, old⟩ := good.sits.held i other found
      exact ⟨there, List.mem_cons_of_mem _ old⟩
  · intro i used
    rw [held]
    by_cases same : i = slot
    · exact ⟨kind, by simp [same]⟩
    · obtain ⟨other, found⟩ := good.sits.used i ((List.mem_cons.mp used).resolve_left same)
      exact ⟨other, by simpa [same] using found⟩
  · exact good.kept.cons placed (by trivial) (by trivial) (fun _ => by trivial)
      (fun _ => by trivial) fun astray => False.elim astray

end

end MathScript
