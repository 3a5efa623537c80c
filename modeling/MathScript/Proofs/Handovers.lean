import MathScript.Proofs.Copies
import MathScript.Proofs.Placed
import MathScript.Proofs.ReadOnly

/-!
Handovers. Every call of a generic function that completes is put down beside the machine, with its
arguments and their values, and with the machine in front of it and behind it. Whatever the function
replies with is written back in place, which the recorded evaluation tells of all that is touched.
-/

namespace MathScript

open Machine Tree

structure Handover where
  native : Nat
  overload : Nat
  writeback : List (Option Binding)
  args : List Tree
  values : List Value
  /-- The arguments have been evaluated, and the function has not been called yet. -/
  before : Machine
  after : Machine

namespace Handover

/-- The parameters as the function is handed them. -/
def params (h : Handover) : List Param := h.values.map .ofValue

/-- The function replies with these parameters. -/
def Answers (host : Host) (h : Handover) (params : List Param) : Prop :=
  ∃ x kept m,
    Eval.ask host h.native h.overload h.values h.before = .ok (some ⟨.ok x, params, kept⟩) m

/-- What is written back to are arguments that are variables, each in its place. -/
def Bare (h : Handover) : Prop :=
  ∀ (i : Nat) (b : Binding), h.writeback[i]? = some (some b) → h.args[i]? = some (.load b)

end Handover

/-! ### Handovers put down -/

namespace Beside

open Eval

/-- A call that completes is put down, the newest first. -/
def hand (host : Host) (native overload : Nat) (writeback : List (Option Binding))
    (args : List Tree) (values : List Value) : Flow (Beside (List Handover)) Value := fun s =>
  match callGeneric host native overload writeback values s.machine with
  | .ok v m => .ok v ⟨m, ⟨native, overload, writeback, args, values, s.machine, m⟩ :: s.notes⟩
  | .error e m => .error e ⟨m, s.notes⟩

def handing (host : Host) : Kernel (Beside (List Handover)) where
  load b := lift (load b)
  element b x := lift (element host.check b x)
  slice b x y := lift (slice host.check b x y)
  size b := lift (size b)
  assign t op v := lift (assign host.check t op v)
  readTarget t := lift (readTarget host.check t)
  writeTarget t v := lift (writeTarget t v)
  declare slot _ v := lift (modify fun m => m.declare slot v)
  numeric native vs := lift (callNumeric host native vs)
  generic := hand host
  enter := enter id fun _ notes => notes
  applied _ _ _ := pure ()
  finished _ _ := pure ()

variable (host : Host)

theorem handing_inStep :
    (Machine.kernel host).InStep (handing host)
      (fun {α} (x : Eval α) y => Agree (fun m s => s.machine = m) x y) (fun _ => True)
      fun _ _ => True where
  load b _ := agree_lift _
  element b x _ := agree_lift _
  slice b x y _ := agree_lift _
  size b _ := agree_lift _
  assign t op v _ := agree_lift _
  readTarget t _ := agree_lift _
  writeTarget t v _ := agree_lift _
  declare slot shape v _ _ := agree_lift _
  numeric native vs := agree_lift _
  generic native overload writeback args vs _ := by
    rintro _ s rfl
    change SameEnd _ (callGeneric host native overload writeback vs s.machine) (hand ..)
    unfold hand
    cases callGeneric host native overload writeback vs s.machine <;> exact ⟨rfl, rfl⟩
  applied op args vs := agree_pure ()
  finished t v := agree_pure ()

/-- Whoever puts handovers down does not change the evaluation. -/
theorem handing_erases (depth : Nat) (t : Tree) :
    Agree (fun m (s : Beside (List Handover)) => s.machine = m) (t.eval host (host.invoke depth))
      (t.walk (handing host) host ((handing host).invoke host depth)) := by
  have calls : ∀ name p args, Agree (fun m (s : Beside (List Handover)) => s.machine = m)
      ((Machine.kernel host).invoke host depth name p args)
      ((handing host).invoke host depth name p args) := by
    apply (handing_inStep host).calls (agree_lockstep _) (.inl rfl) fun _ => rfl
    · exact fun p args x y same => agree_enter id (fun _ notes => notes) p args same
    · exact Nat.le_refl depth
    · intro name y equal
      rw [equal rfl]
      exact agree_throw _
  have same := (handing_inStep host).walk_all (agree_lockstep _) host calls t
  rwa [Machine.invoke_kernel, Machine.walk_kernel] at same

end Beside

namespace Host

variable (host : Host) (program : Program) (store : Store)

/-- An evaluation from the top, with every handover put down. -/
def handOver : EStateM.Result Signal (Beside (List Handover)) Value :=
  (Beside.handing host).run host program ⟨start program store, []⟩

/-- The calls of generic functions that complete in an evaluation, the newest first. -/
def handovers : List Handover := (lastState (host.handOver program store)).notes

theorem handOver_erases :
    SameEnd (fun m (s : Beside (List Handover)) => s.machine = m)
      ((Machine.kernel host).run host program (start program store))
      (host.handOver program store) := by
  rw [Machine.run_kernel]
  exact Beside.handing_erases host host.limit program.tree _ _ rfl

theorem run_handOver :
    host.run program store =
      ⟨outcomeOf (host.handOver program store),
        (lastState (host.handOver program store)).machine.store,
        (lastState (host.handOver program store)).machine.reports.toList⟩ :=
  run_beside (host.handOver_erases program store)

end Host

/-! ### Variables in place -/

namespace Machine

/-- What is written back to is in place. -/
def Reaches (m : Machine) (writeback : List (Option Binding)) (params : List Param) : Prop :=
  ∀ (i : Nat) (b : Binding) (copy : Param), writeback[i]? = some (some b) →
    params[i]? = some copy → copy.kind = b.kind → m.Has b

variable {m m' : Machine} {writeback : List (Option Binding)} {params : List Param}

theorem Reaches.cons {own : Option Binding} {copy : Param}
    (first : ∀ b, own = some b → copy.kind = b.kind → m.Has b)
    (rest : m.Reaches writeback params) : m.Reaches (own :: writeback) (copy :: params) := by
  intro i b copy' found found' kind
  cases i with
  | zero =>
      obtain rfl := Option.some.inj found'
      exact first b (Option.some.inj found) kind
  | succ i => exact rest i b copy' found found' kind

theorem Reaches.of_still {written : Place → Prop} (reaches : m'.Reaches writeback params)
    (still : Still written m m') : m.Reaches writeback params := fun i b copy found found' kind =>
  (reaches i b copy found found' kind).of_still still

end Machine

namespace Tape

theorem keeps_touching {α : Type} {fine : Moment → Prop} (b : Binding) (use : Kind) (writes : Bool)
    (x : Eval α) : Keeps (Lost fine) (touching b use writes x) :=
  keeps_bind (keeps_note _) fun _ => keeps_bind (keeps_lift x) fun _ =>
    keeps_bind (keeps_note _) fun _ => keeps_pure _

theorem keeps_writeBack {fine : Moment → Prop} (params : List Param)
    (writeback : List (Option Binding)) : Keeps (Lost fine) (writeBack params writeback) := by
  induction params generalizing writeback with
  | nil => exact keeps_pure ()
  | cons copy params ih =>
      match writeback with
      | [] => exact keeps_pure ()
      | none :: writeback => exact ih writeback
      | some b :: writeback =>
          rw [writeBack]
          split
          · exact keeps_bind (keeps_touching b _ true _) fun _ => ih writeback
          · exact ih writeback

/-- It is so as long as all is fine. -/
theorem ends_writeBack (params : List Param) (writeback : List (Option Binding)) (t : Tape) :
    Ends (writeBack params writeback) t
      (fun _ t' => Lost Moment.Fine t' ∨ t.machine.Reaches writeback params)
      fun _ _ => True := by
  induction params generalizing writeback t with
  | nil => exact ends_pure (.inr fun i b copy _ found => by simp at found)
  | cons copy params ih =>
      match writeback with
      | [] => exact ends_pure (.inr fun i b copy found => by simp at found)
      | none :: writeback =>
          exact (ih writeback t).mono (fun _ t' => Or.imp_right fun rest => rest.cons (by simp))
            fun _ _ => id
      | some b :: writeback =>
          rw [writeBack]
          by_cases kind : copy.kind = b.kind
          · rw [if_pos kind]
            by_cases fine : Moment.Fine ⟨.touch b copy.kind true, t.machine.locals, t.frame⟩
            · have has : t.machine.Has b := has_of_fine fine
              have still := (Eval.stays_writeBack has kind).1
              have touched :
                  Ends (touching b copy.kind true (modify (Eval.writeBack [copy] [some b]))) t
                    (fun _ t' => t'.machine = Eval.writeBack [copy] [some b] t.machine)
                    fun _ _ => True := rfl
              refine ends_bind (touched.mono (fun _ t' same => ?_) fun _ _ => id)
              refine (ih writeback t').mono (fun _ _ => Or.imp_right fun rest => ?_) fun _ _ => id
              rw [same] at rest
              refine .cons ?_ (rest.of_still still)
              rintro _ ⟨⟩ -
              exact has
            · have lost :
                  Ends (touching b copy.kind true (modify (Eval.writeBack [copy] [some b]))) t
                    (fun _ => Lost Moment.Fine) fun _ => Lost Moment.Fine :=
                note_lost (keeps_bind (keeps_lift _) fun _ => keeps_bind (keeps_note _) fun _ =>
                  keeps_pure _) fine
              refine ends_bind (lost.mono (fun _ t' lost => ?_) fun _ _ _ => trivial)
              exact (keeps_writeBack params writeback t' lost).mono (fun _ _ => .inl)
                fun _ _ _ => trivial
          · rw [if_neg kind]
            refine (ih writeback t).mono (fun _ t' => Or.imp_right fun rest => rest.cons ?_)
              fun _ _ => id
            rintro _ ⟨⟩ same
            exact absurd same kind

/-- Whoever completes a call of a generic function has written back in place, or is lost. -/
theorem ends_callGeneric (host : Host) (native overload : Nat) (writeback : List (Option Binding))
    (args : List Tree) (values : List Value) (t : Tape) :
    Ends (callGeneric host native overload writeback args values) t
      (fun _ t' => Lost Moment.Fine t' ∨ ∀ x params kept m,
        Eval.ask host native overload values t.machine = .ok (some ⟨.ok x, params, kept⟩) m →
        t.machine.Reaches writeback params)
      fun _ _ => True := by
  refine ends_bind (ends_modify (ends_bind ?_))
  have still : Stays (fun _ => False) (Eval.ask host native overload values) t.machine
      fun _ => True := Eval.stays_ask host native overload values
  unfold Ends lift
  unfold Stays Ends at still
  cases asked : Eval.ask host native overload values t.machine with
  | error e m => trivial
  | ok reply m =>
      rw [asked] at still
      match reply with
      | none => exact .inr fun _ _ _ _ same => by cases same
      | some ⟨.error f, _, _⟩ => trivial
      | some ⟨.ok x, params, kept⟩ =>
          refine ends_bind ((ends_writeBack params writeback _).mono ?_ fun _ _ _ => trivial)
          refine fun _ t' => Or.imp_right fun reaches => ?_
          rintro _ _ _ _ ⟨⟩
          exact reaches.of_still still.1

end Tape

/-- Whatever the functions reply with is written back in place. -/
structure Beside.Lands (host : Host) (m : Machine) (s : Beside (List Handover)) : Prop where
  machine : s.machine = m
  landed : ∀ h ∈ s.notes, ∀ params, h.Answers host params → h.before.Reaches h.writeback params

namespace Beside

open Tape

variable (host : Host)

theorem agree_lands {α : Type} (x : Eval α) : Agree (Lands host) x (lift x) := by
  rintro _ s ⟨rfl, landed⟩
  unfold lift
  cases x s.machine <;> exact ⟨rfl, rfl, landed⟩

theorem tracks_lands {α : Type} (b : Binding) (use : Kind) (writes : Bool) (x : Eval α) :
    Tracks (Over (Lands host)) (Lost Moment.Fine) (touching b use writes x) (lift x) :=
  tracks_touching fun m s _ lands _ => agree_lands host x m s lands

/-- A call that completes has written back in place. -/
theorem tracks_hand (native overload : Nat) (writeback : List (Option Binding)) (args : List Tree)
    (values : List Value) :
    Tracks (Over (Lands host)) (Lost Moment.Fine)
      (callGeneric host native overload writeback args values)
      (hand host native overload writeback args values) where
  stays := keeps_bind (keeps_note _) fun _ => keeps_bind (Tape.keeps_lift _) fun reply => by
    rcases reply with _ | ⟨f | x, params, _⟩
    · exact keeps_pure _
    · exact keeps_throw _
    · exact keeps_bind (keeps_writeBack params writeback) fun _ => keeps_pure _
  alike t s lands := by
    obtain ⟨machine_eq, landed⟩ := lands
    have erases := callGeneric_erases host native overload writeback args values t _ rfl
    have ends := ends_callGeneric host native overload writeback args values t
    unfold hand Ends
    unfold Ends at ends
    rw [machine_eq]
    cases taped : callGeneric host native overload writeback args values t with
    | ok v t' =>
        rw [taped] at erases ends
        cases called : Eval.callGeneric host native overload writeback values t.machine with
        | error e m => simp [called, SameEnd] at erases
        | ok w m =>
            rw [called] at erases
            obtain ⟨rfl, rfl⟩ := erases
            rcases ends with lost | reaches
            · exact .inr lost
            · refine .inl ⟨rfl, rfl, List.forall_mem_cons.mpr ⟨?_, landed⟩⟩
              rintro params ⟨x, kept, m, asked⟩
              exact reaches x params kept m asked
    | error e t' =>
        rw [taped] at erases
        cases called : Eval.callGeneric host native overload writeback values t.machine with
        | ok w m => simp [called, SameEnd] at erases
        | error f m =>
            rw [called] at erases
            obtain ⟨rfl, rfl⟩ := erases
            exact .inl ⟨rfl, rfl, landed⟩

theorem kernel_lands :
    (Tape.kernel host).InStep (handing host)
      (fun {α} (x : Flow Tape α) y => Tracks (Over (Lands host)) (Lost Moment.Fine) x y)
      (fun _ => True) fun _ _ => True where
  load b _ := tracks_lands host b _ _ _
  element b x _ := tracks_lands host b _ _ _
  slice b x y _ := tracks_lands host b _ _ _
  size b _ := tracks_lands host b _ _ _
  assign t op v _ := tracks_lands host t.binding _ _ _
  readTarget t _ := tracks_lands host t.binding _ _ _
  writeTarget t v _ := tracks_lands host t.binding _ _ _
  declare slot shape v _ _ := by
    refine tracks_note ?_ fun t s lands _ => .inl ?_
    · exact keeps_bind (Tape.keeps_lift _) fun _ _ lost => ends_modify lost
    · obtain ⟨machine_eq, landed⟩ := lands
      exact ⟨rfl, congrArg (fun m : Machine => m.declare slot v) machine_eq, landed⟩
  numeric native vs := tracks_lift (agree_lands host _)
  generic native overload writeback args vs _ :=
    tracks_hand host native overload writeback args vs
  applied op args vs := tracks_note (keeps_pure ()) fun t s lands _ => .inl ⟨rfl, lands⟩
  finished t v := tracks_note (keeps_pure ()) fun t s lands _ => .inl ⟨rfl, lands⟩

end Beside

/-- If all that is touched is fine, whatever functions reply with is written back in place. -/
theorem Host.handovers_land (host : Host) (program : Program) (store : Store)
    (fine : ∀ m ∈ host.log program store, m.Fine) :
    ∀ h ∈ host.handovers program store, ∀ params, h.Answers host params →
      h.before.Reaches h.writeback params := by
  have tracked : Tracks (Tape.Over (Beside.Lands host)) (Tape.Lost Moment.Fine)
      ((Tape.kernel host).run host program) ((Beside.handing host).run host program) := by
    apply (Beside.kernel_lands host).runs (tracks_lockstep _ _)
    · exact .inl rfl
    · exact fun _ => rfl
    · intro p args x y same
      apply same.enter
      · rintro t s ⟨machine_eq, landed⟩
        exact ⟨congrArg (fun m : Machine => { m with locals := frame p args }) machine_eq, landed⟩
      · rintro t s t' s' ⟨machine_eq, -⟩ ⟨machine_eq', landed⟩
        refine ⟨?_, landed⟩
        rw [machine_eq, machine_eq']
        rfl
      · exact fun _ => id
      · exact fun _ _ => id
    · exact Nat.le_refl _
    · intro name y equal
      rw [equal rfl]
      exact .of_agree (agree_throw _) (keeps_throw _)
  have same := tracked.to_end (s := Tape.blank program store) (t := ⟨start program store, []⟩)
    ⟨rfl, by simp⟩ ?_
  · exact same.state.landed
  · rintro ⟨m, logged, bad⟩
    rw [log_eq] at fine
    exact bad (fine m logged)

end MathScript
