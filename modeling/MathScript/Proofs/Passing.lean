import MathScript.Proofs.Exchanges
import MathScript.Proofs.Handovers
import Mathlib.Data.List.Nodup
import Mathlib.Data.List.Pairwise

/-!
What becomes of variables that are passed. Arguments are copied as they are evaluated, and all that
are variables are written back behind the call. A function that leaves its parameters alone so
leaves every variable with the last copy of it; an update by a later argument is undone.
-/

namespace MathScript

open Machine Tree

/-! ### One length for a slot -/

namespace Tree

variable {t : Tree} {slot : Nat} {shape shape' : Shape}

theorem declares_iff : t.Declares slot shape ↔
    t.declaration? = some (slot, shape) ∨ ∃ child ∈ t.children, child.Declares slot shape := by
  simp only [Declares, nodes_eq t, List.mem_cons, List.mem_flatMap]
  constructor
  · rintro ⟨node, rfl | ⟨child, below, inside⟩, found⟩
    · exact .inl found
    · exact .inr ⟨child, below, node, inside, found⟩
  · rintro (found | ⟨child, below, node, inside, found⟩)
    · exact ⟨t, .inl rfl, found⟩
    · exact ⟨node, .inr ⟨child, below, inside⟩, found⟩

theorem mem_declares (found : t.declaration? = some (slot, shape)) : slot ∈ t.declares := by
  rw [declares_eq, found]
  exact List.mem_singleton.mpr rfl

theorem Declares.mem_declared (declares : t.Declares slot shape) : slot ∈ t.declared := by
  induction t using children_induction with
  | step t ih =>
      rw [declared_eq]
      rcases declares_iff.mp declares with own | ⟨child, below, inner⟩
      · exact List.mem_append_left _ (mem_declares own)
      · exact List.mem_append_right _
          (List.mem_flatMap.mpr ⟨child, t.children_subset_parts below, ih child below inner⟩)

/-- Where all declarations have slots of their own, a slot is declared in one way. -/
theorem Declares.unique (nodup : t.declared.Nodup) (declares : t.Declares slot shape)
    (declares' : t.Declares slot shape') : shape = shape' := by
  induction t using children_induction with
  | step t ih =>
      rw [declared_eq, List.nodup_append, List.nodup_flatMap] at nodup
      obtain ⟨-, ⟨each, apart⟩, disjoint⟩ := nodup
      have outside : ∀ {shape shape' child}, t.declaration? = some (slot, shape) →
          child ∈ t.children → ¬ child.Declares slot shape' := fun own below inner =>
        disjoint _ (mem_declares own) _ (List.mem_flatMap.mpr
          ⟨_, t.children_subset_parts below, inner.mem_declared⟩) rfl
      rcases declares_iff.mp declares with own | ⟨child, below, inner⟩ <;>
        rcases declares_iff.mp declares' with own' | ⟨child', below', inner'⟩
      · exact congrArg Prod.snd (Option.some.inj (own.symm.trans own'))
      · exact absurd inner' (outside own below')
      · exact absurd inner (outside own' below)
      · have part := t.children_subset_parts below
        have part' := t.children_subset_parts below'
        obtain rfl : child = child' := by
          by_contra other
          have : Std.Symm (Function.onFun List.Disjoint declared) :=
            ⟨fun _ _ apart _ inside inside' => apart inside' inside⟩
          exact apart.forall part part' other inner.mem_declared inner'.mem_declared
        exact ih child below (each child part) inner inner'

/-- Every slot that vectors are declared in has one length. -/
theorem exists_lengths (nodup : t.declared.Nodup) : ∃ lengths : Nat → Nat,
    ∀ slot length fill, t.Declares slot (.vector length fill) → lengths slot = length := by
  classical
  refine ⟨fun slot => if known : ∃ length fill, t.Declares slot (.vector length fill) then
    known.choose else 0, fun slot length fill declares => ?_⟩
  have known : ∃ length fill, t.Declares slot (.vector length fill) := ⟨length, fill, declares⟩
  obtain ⟨fill', declares'⟩ := known.choose_spec
  have same := declares'.unique nodup declares
  exact (dif_pos known).trans (Shape.vector.inj same).1

/-- Calls of generic functions write back to arguments that are variables, and vectors are declared
with the lengths told. -/
structure Passes (lengths : Nat → Nat) (t : Tree) : Prop where
  bare : ∀ name native overload writeback args,
    t = .call (.generic name native overload writeback) args →
      ∀ (i : Nat) (b : Binding), writeback[i]? = some (some b) → args[i]? = some (.load b)
  long : ∀ slot length fill, t.declaration? = some (slot, .vector length fill) →
    lengths slot = length

theorem Steered.nodes {level : Nat} {t : Tree} (steered : t.Steered level) :
    ∀ node ∈ t.nodes, node.HandsBack := by
  induction t using children_induction generalizing level with
  | step t ih =>
      intro node member
      rw [nodes_eq] at member
      rcases List.mem_cons.mp member with rfl | deeper
      · exact steered.hands
      · obtain ⟨child, below, inside⟩ := List.mem_flatMap.mp deeper
        rcases mem_children.mp below with outside | within
        · exact ih child below (steered.head outside) node inside
        · exact ih child below (steered.body (Option.mem_toList.mp within)) node inside

end Tree

/-- A constant may not be written, so what is written back to is the argument itself. -/
theorem Program.Compiled.passes {offers : Grant → Prop} {arity : Nat} {p : Program}
    (compiled : p.Compiled offers arity) : ∃ lengths, p.tree.Every (Passes lengths) := by
  obtain ⟨lengths, long⟩ := exists_lengths compiled.distinct
  obtain ⟨layout, -, laid⟩ := compiled.laidOut
  refine ⟨lengths, every_iff.mpr fun node inside => ⟨?_, fun slot length fill found =>
    long slot length fill ⟨node, inside, found⟩⟩⟩
  rintro name native overload writeback args rfl i b found
  obtain ⟨writable, argument | ⟨x, constant⟩⟩ := compiled.steered.nodes _ inside i b found
  · exact argument
  · have bound : p.tree.Binds b := ⟨_, inside, List.mem_filterMap.mpr
      ⟨some b, List.mem_of_getElem? found, rfl⟩⟩
    obtain ⟨live, scope⟩ := laid.binds bound
    rw [Binding.InScope, constant] at scope
    exact absurd writable (by simp [scope])

/-! ### Variables with room -/

/-- All values a place has held so far it has room for, and so for copies of them. -/
theorem Machine.Sized.takes_copy {store : Store} {lengths : Nat → Nat} {m : Machine}
    (sized : m.Sized store lengths) (p : Place) :
    p.Takes store lengths (Param.ofValue (m.read p)).value := by
  have takes := sized.takes p
  generalize held : m.read p = v at takes ⊢
  cases v with
  | null =>
      cases p with
      | slot i kind => exact fun _ vector => by cases vector
      | scalar | constant | vector | string => cases held
  | scalar x | vector xs | string s => exact takes

/-- A frame that is entered has no vectors yet. -/
theorem Machine.Sized.enter {store : Store} {lengths : Nat → Nat} {m : Machine}
    (sized : m.Sized store lengths) (own : Nat → Nat) (p : Program) (args : List Float) :
    Sized store own { m with locals := Host.frame p args } where
  hosts := sized.hosts
  cells := sized.cells
  slots i n found := by
    have fresh := kindAt_frame p args m i
    rw [kindAt_eq, found] at fresh
    split at fresh
    · cases fresh
    · split at fresh <;> cases fresh

/-- A call that completed, of arguments that fit the variables they are written back to. A variable
that no argument writes still holds what was copied of it. -/
structure Handover.Fair (host : Host) (h : Handover) : Prop where
  called : ∃ v,
    Eval.callGeneric host h.native h.overload h.writeback h.values h.before = .ok v h.after
  bare : h.Bare
  room : ∃ store lengths, h.before.Sized store lengths ∧ ∀ (i : Nat) (b : Binding) (copy : Param),
    h.writeback[i]? = some (some b) → h.params[i]? = some copy →
      b.place.Takes store lengths copy.value
  current : ∀ (i : Nat) (b : Binding) (v : Value), h.writeback[i]? = some (some b) →
    h.values[i]? = some v → (∀ t ∈ h.args, host.Spares b.place t) → v = h.before.read b.place

/-- So is every handover put down. -/
structure Beside.Fairly (host : Host) (store : Store) (lengths : Nat → Nat)
    (s : Beside (List Handover)) : Prop where
  sized : s.machine.Sized store lengths
  fair : ∀ h ∈ s.notes, h.Fair host

namespace Beside

open Eval

variable {host : Host} {store : Store} {lengths : Nat → Nat} {α : Type}

theorem keeps_fairly {x : Eval α} (kept : Keeps (Sized store lengths) x) :
    Keeps (Fairly host store lengths) (lift x) := by
  rintro s ⟨sized, fair⟩
  have ends := kept s.machine sized
  unfold Ends at ends ⊢
  unfold lift
  cases end_eq : x s.machine <;> rw [end_eq] at ends <;> exact ⟨ends, fair⟩

/-- Whatever a node does itself but for a call of a generic function is done on the machine. -/
theorem inStepAt_fairly {t : Tree} (passes : t.Passes lengths)
    (other : ∀ name native overload writeback args,
      t ≠ .call (.generic name native overload writeback) args) :
    (handing host).InStepAt (handing host)
      (fun {α} (x : Flow (Beside (List Handover)) α) _ => Keeps (Fairly host store lengths) x)
      t := by
  have own := Machine.inStepAt_of_bears host (I := Sized store lengths) Sized.placewise
    (t := t) (fun _ p _ => Sized.bears p) fun slot shape found v holds m sized =>
      sized.modifyLocals fun xs vector => by
        subst vector
        cases shape with
        | scalar | string => exact holds.elim
        | vector length fill => exact Eq.trans holds (passes.long slot length fill found).symm
  cases t with
  | load | size => exact keeps_fairly own
  | element b index => exact fun x => keeps_fairly (own x)
  | slice b first last => exact fun x y => keeps_fairly (own x y)
  | apply op args => exact fun vs => keeps_pure ()
  | call callee args =>
      cases callee with
      | scalar | vararg => exact fun vs => keeps_fairly (own vs)
      | generic name native overload writeback =>
          exact (other name native overload writeback args rfl).elim
      | composed => trivial
  | declare slot shape parts => exact fun v holds => keeps_fairly (own v holds)
  | assign target op value => exact fun t same v => keeps_fairly (own t same v)
  | swap left right =>
      exact fun t same => ⟨keeps_fairly (own t same).1, fun v => keeps_fairly ((own t same).2 v)⟩
  | null | number | text | logic | branch | switch | whileLoop | forLoop | repeatLoop | breakLoop
  | continueLoop | returnList | sequence => trivial

section

variable {invoke : Kernel.Invoking (Beside (List Handover))}

/-- A variable that is evaluated has room for what it yields. -/
theorem ends_argument {t : Tree}
    (kept : Keeps (Fairly host store lengths) (t.walk (handing host) host invoke))
    {s : Beside (List Handover)} (fairly : Fairly host store lengths s) :
    Ends (t.walk (handing host) host invoke) s
      (fun v s' => Fairly host store lengths s' ∧
        ∀ b, t = .load b → b.place.Takes store lengths (Param.ofValue v).value)
      fun _ => Fairly host store lengths := by
  by_cases variable_ : ∃ b, t = .load b
  · obtain ⟨b, rfl⟩ := variable_
    have yields : (Tree.load b).walk (handing host) host invoke s =
        .ok (s.machine.read b.place) s := rfl
    unfold Ends
    rw [yields]
    refine ⟨fairly, ?_⟩
    rintro _ ⟨⟩
    exact fairly.sized.takes_copy b.place
  · exact (kept s fairly).mono
      (fun v s' after => ⟨after, fun b same => absurd ⟨b, same⟩ variable_⟩) fun _ _ => id

theorem ends_arguments {args : List Tree}
    (kept : ∀ t ∈ args, Keeps (Fairly host store lengths) (t.walk (handing host) host invoke))
    {s : Beside (List Handover)} (fairly : Fairly host store lengths s) :
    Ends (walkList (handing host) host invoke args) s
      (fun vs s' => Fairly host store lengths s' ∧
        ∀ (i : Nat) (b : Binding) (v : Value), args[i]? = some (.load b) → vs[i]? = some v →
          b.place.Takes store lengths (Param.ofValue v).value)
      fun _ => Fairly host store lengths := by
  induction args generalizing s with
  | nil => exact ends_pure ⟨fairly, by simp⟩
  | cons t args ih =>
      obtain ⟨first, others⟩ := List.forall_mem_cons.mp kept
      refine ends_bind ((ends_argument first fairly).mono ?_ fun _ _ => id)
      rintro v s' ⟨fairly', room⟩
      refine ends_bind ((ih others fairly').mono ?_ fun _ _ => id)
      rintro vs s'' ⟨fairly'', rooms⟩
      refine ends_pure ⟨fairly'', fun i b w argument value => ?_⟩
      cases i with
      | zero =>
          obtain rfl := Option.some.inj value
          exact room b (Option.some.inj argument)
      | succ i => exact rooms i b w argument value

end

section

variable {depth : Nat}

theorem ends_spared {p : Place} {t : Tree} (spared : host.Spares p t) (s : Beside (List Handover)) :
    Ends (t.walk (handing host) host ((handing host).invoke host depth)) s
      (fun _ s' => s'.machine.read p = s.machine.read p)
      fun _ s' => s'.machine.read p = s.machine.read p := by
  have minds : Minds p fun m => m.read p = s.machine.read p := fun _ _ same => same.trans
  have kept := spared.keeps minds depth s.machine rfl
  have same := handing_erases host depth t s.machine s rfl
  unfold Ends at kept ⊢
  cases plain : t.eval host (host.invoke depth) s.machine <;>
    cases handed : t.walk (handing host) host ((handing host).invoke host depth) s <;>
      rw [plain, handed] at same <;> rw [plain] at kept
  · exact (congrArg (read · p) same.2).trans kept
  · exact same.elim
  · exact same.elim
  · exact (congrArg (read · p) same.2).trans kept

/-- What no argument writes still holds behind all of them what each of them yielded for it. -/
theorem ends_all_spared {p : Place} {args : List Tree} (spared : ∀ t ∈ args, host.Spares p t)
    (s : Beside (List Handover)) :
    Ends (walkList (handing host) host ((handing host).invoke host depth) args) s
      (fun vs s' => s'.machine.read p = s.machine.read p ∧
        ∀ (i : Nat) (b : Binding) (v : Value), args[i]? = some (.load b) → b.place = p →
          vs[i]? = some v → v = s.machine.read p)
      fun _ _ => True := by
  induction args generalizing s with
  | nil => exact ends_pure ⟨rfl, by simp⟩
  | cons t args ih =>
      obtain ⟨first, others⟩ := List.forall_mem_cons.mp spared
      have yields : ∀ b, t = .load b → b.place = p →
          t.walk (handing host) host ((handing host).invoke host depth) s =
            .ok (s.machine.read p) s := by
        rintro b rfl rfl
        rfl
      unfold walkList
      cases head : t.walk (handing host) host ((handing host).invoke host depth) s with
      | error e s' =>
          rw [Ends, bind_stopped head]
          trivial
      | ok v s' =>
          have same := (ends_spared first s).of_ok head
          rw [Ends, bind_completed head, ← Ends]
          refine ends_bind ((ih others s').mono ?_ fun _ _ => id)
          rintro vs s'' ⟨same', rest⟩
          refine ends_pure ⟨same'.trans same, fun i b w argument own value => ?_⟩
          cases i with
          | zero =>
              obtain rfl := Option.some.inj value
              rw [yields b (Option.some.inj argument) own] at head
              cases head
              rfl
          | succ i => exact (rest i b w argument own value).trans same

/-- A call of a generic function hands over what its arguments yield. -/
theorem keeps_generic {name : String} {native overload : Nat} {writeback : List (Option Binding)}
    {args : List Tree} {t : Tree} (call : t = .call (.generic name native overload writeback) args)
    (passes : t.Passes lengths)
    (kept : ∀ t ∈ args, Keeps (Fairly host store lengths)
      (t.walk (handing host) host ((handing host).invoke host depth))) :
    Keeps (Fairly host store lengths)
      (t.walk (handing host) host ((handing host).invoke host depth)) := by
  subst call
  intro s fairly
  have bare := passes.bare name native overload writeback args rfl
  have arguments := ends_arguments kept fairly
  rw [walk.eq_def]
  refine ends_bind ?_
  change Ends (_ >>= hand host native overload writeback args) s _ _
  cases evaluated : walkList (handing host) host ((handing host).invoke host depth) args s with
  | error e s' =>
      rw [Ends, bind_stopped evaluated]
      exact arguments.of_error evaluated
  | ok vs s' =>
      obtain ⟨⟨sized, fair⟩, room⟩ := arguments.of_ok evaluated
      have after : Ends (callGeneric host native overload writeback vs) s'.machine
          (fun _ => Sized store lengths) fun _ => Sized store lengths :=
        keeps_callGeneric (fun b _ => Sized.bears b.place) Sized.placewise host native overload vs
          _ sized
      rw [Ends, bind_completed evaluated]
      unfold hand
      unfold Ends at after
      cases called : callGeneric host native overload writeback vs s'.machine with
      | error e m =>
          rw [called] at after
          exact ⟨after, fair⟩
      | ok v m =>
          rw [called] at after
          refine ⟨after, List.forall_mem_cons.mpr
            ⟨⟨⟨v, called⟩, bare, ⟨store, lengths, sized, fun i b copy own found => ?_⟩,
              fun i b v own value spared => ?_⟩, fair⟩⟩
          · rw [Handover.params, List.getElem?_map, Option.map_eq_some_iff] at found
            obtain ⟨value, valued, rfl⟩ := found
            exact room i b value (bare i b own) valued
          · obtain ⟨same, yielded⟩ := (ends_all_spared spared s).of_ok evaluated
            exact (yielded i b v (bare i b own) rfl value).trans same.symm

theorem walk_fairly {t : Tree} (every : t.Every (Passes lengths))
    (invokes : ∀ n p, host.body? n = some p → ∀ name args,
      Keeps (Fairly host store lengths) ((handing host).invoke host depth name p args)) :
    Keeps (Fairly host store lengths)
      (t.walk (handing host) host ((handing host).invoke host depth)) := by
  induction every with
  | @node t own _ ih =>
      by_cases generic : ∃ name native overload writeback args,
          t = .call (.generic name native overload writeback) args
      · obtain ⟨name, native, overload, writeback, args, rfl⟩ := generic
        exact keeps_generic rfl own ih
      · refine Kernel.InStep.walk_node_self (keeps_lockstep _)
          (inStepAt_fairly own fun name native overload writeback args same =>
            generic ⟨name, native, overload, writeback, args, same⟩)
          (fun _ => keeps_pure ()) (fun n _ p found => invokes n p found) ih

end

/-- Every frame has lengths of its own. -/
theorem invoke_fairly
    (passes : ∀ n p, host.body? n = some p → ∃ lengths, p.tree.Every (Passes lengths))
    (depth : Nat) {n : Nat} {p : Program} (found : host.body? n = some p) (name : String)
    (args : List Float) :
    Keeps (Fairly host store lengths) ((handing host).invoke host depth name p args) := by
  induction depth generalizing lengths n p name args with
  | zero => exact keeps_throw _
  | succ depth ih =>
      obtain ⟨own, every⟩ := passes n p found
      rintro s ⟨sized, fair⟩
      refine Flow.ends_enter (walk_fairly every (fun n p found name args => ih found name args)
        _ ⟨sized.enter own p args, fair⟩) fun s' after => ⟨?_, after.fair⟩
      exact ⟨after.sized.hosts, after.sized.cells, sized.slots⟩

end Beside

/-- All that is handed over in an evaluation fits the variables it is written back to. -/
theorem Host.handovers_fair (host : Host) (program : Program) (store : Store) {lengths : Nat → Nat}
    (every : program.tree.Every (Passes lengths))
    (passes : ∀ n p, host.body? n = some p → ∃ lengths, p.tree.Every (Passes lengths)) :
    ∀ h ∈ host.handovers program store, h.Fair host := by
  have kept : Keeps (Beside.Fairly host store lengths) ((Beside.handing host).run host program) :=
    Beside.walk_fairly every fun n p found name args =>
      Beside.invoke_fairly passes host.limit found name args
  have sized : Sized store lengths ⟨store, #[], #[]⟩ := ⟨fun _ => rfl, ⟨rfl, rfl⟩, by simp [formAt]⟩
  exact (ends_lastState.mp (kept ⟨start program store, []⟩
    ⟨sized.enter lengths program [], by simp⟩)).fair

/-! ### Calls that leave the parameters alone -/

namespace Handover

variable {host : Host} {h : Handover}

/-- What a call leaves where the function has left the parameters as they were handed over. -/
theorem Fair.read_after (fair : h.Fair host) (answers : h.Answers host h.params)
    (lands : h.before.Reaches h.writeback h.params) (p : Place) :
    h.after.read p = (copies h.writeback h.params p).getLast?.getD (h.before.read p) := by
  obtain ⟨⟨v, called⟩, -, ⟨store, lengths, sized, room⟩, -⟩ := fair
  obtain ⟨x, kept, m, asked⟩ := answers
  have still : Still (fun _ => False) h.before m :=
    ((Eval.stays_ask host h.native h.overload h.values).of_ok asked).1
  have after_eq : h.after = Eval.writeBack h.params h.writeback m := by
    simp only [Eval.callGeneric, bind, EStateM.bind, asked] at called
    injection called with _ same
    exact same.symm
  have copied : Copied store lengths h.before h.writeback h.params :=
    fun i b copy own found kind => ⟨lands i b copy own found kind, room i b copy own found⟩
  rw [after_eq, read_writeBack (sized.still still) (copied.still still),
    still.places p fun none => none]

/-- Nothing is changed just if every variable holds what was copied of it last. -/
theorem Fair.unchanged_iff (fair : h.Fair host) (answers : h.Answers host h.params)
    (lands : h.before.Reaches h.writeback h.params) :
    (∀ p, h.after.read p = h.before.read p) ↔
      ∀ p v, (copies h.writeback h.params p).getLast? = some v → h.before.read p = v := by
  refine forall_congr' fun p => ?_
  rw [fair.read_after answers lands]
  cases (copies h.writeback h.params p).getLast? with
  | none => simp
  | some v => simp [eq_comm]

/-- So it is where no argument writes a variable that is passed. -/
theorem Fair.unchanged (fair : h.Fair host) (answers : h.Answers host h.params)
    (lands : h.before.Reaches h.writeback h.params)
    (spared : ∀ (i : Nat) (b : Binding), h.writeback[i]? = some (some b) →
      ∀ t ∈ h.args, host.Spares b.place t) (p : Place) :
    h.after.read p = h.before.read p := by
  refine (fair.unchanged_iff answers lands).mpr (fun p v last => ?_) p
  obtain ⟨i, b, copy, own, found, shares, kind, rfl⟩ := mem_copies (List.mem_of_getLast? last)
  have known := (lands i b copy own found kind).read_kind
  rw [params, List.getElem?_map, Option.map_eq_some_iff] at found
  obtain ⟨value, valued, rfl⟩ := found
  obtain rfl := fair.current i b value own valued (spared i b own)
  rw [Param.value_ofValue known, read_shares shares]

end Handover

/-- Of every variable that is passed the last copy stays. A call whose function leaves its
parameters alone changes nothing just if all those variables still hold what was copied of them
last, as they do if no argument writes them; what a later argument has written to one is undone. -/
theorem last_copies_stay {w w' : World} (reached : w.Reached) (later : w'.Follows w)
    {table text : String} {settings : Settings} {program : Program}
    (compiled : compile (w.table table) settings [] text = .ok program)
    (check : Option Check) (limit rounds : Nat) (store : Store) :
    let host := w'.host check limit rounds
    let ended := host.handOver program store
    host.run program store = ⟨Host.outcomeOf ended, (lastState ended).machine.store,
      (lastState ended).machine.reports.toList⟩ ∧
    ∀ h ∈ host.handovers program store, h.Bare ∧ (h.Answers host h.params →
      (∀ p, h.after.read p =
        (copies h.writeback h.params p).getLast?.getD (h.before.read p)) ∧
      ((∀ p, h.after.read p = h.before.read p) ↔
        ∀ p v, (copies h.writeback h.params p).getLast? = some v → h.before.read p = v) ∧
      ((∀ (i : Nat) (b : Binding), h.writeback[i]? = some (some b) →
        ∀ t ∈ h.args, host.Spares b.place t) → ∀ p, h.after.read p = h.before.read p)) := by
  intro host ended
  refine ⟨host.run_handOver program store, fun h inside => ?_⟩
  obtain ⟨lengths, every⟩ := (compile_compiled compiled).passes
  have passes : ∀ n p, host.body? n = some p → ∃ lengths, p.tree.Every (Passes lengths) := by
    intro n p found
    obtain ⟨f, member, rfl⟩ := World.body_function found
    exact ((later.since reached.sound).sound.functions n f member).passes
  have fair := host.handovers_fair program store every passes h inside
  have lands := host.handovers_land program store
    (reached.fine later compiled check limit rounds store) h inside h.params
  exact ⟨fair.bare, fun answers => ⟨fair.read_after answers (lands answers),
    fair.unchanged_iff answers (lands answers), fair.unchanged answers (lands answers)⟩⟩

/-- A variable and what is assigned to it behind it, passed to a function that only looks: what was
assigned is undone. -/
theorem last_copies_stay_of_assigned :
    let kinds : Native := .generic "TT" fun kept _ params => ⟨.ok 11, params, kept⟩
    let w := World.empty.run [.addScalar "t" "x" 1, .addNatives "t" [("kinds", kinds)]]
    let host := w.host none 100 1000
    ∃ program,
      compile (w.table "t") {} [] "kinds(x, x := 5)" = .ok program ∧
      ((host.handovers program w.store).map fun h =>
        (h.before.store.scalar ⟨0⟩, h.after.store.scalar ⟨0⟩)) = [(5, 1)] ∧
      ∀ h ∈ host.handovers program w.store, h.Bare ∧ (h.Answers host h.params →
        (∀ p, h.after.read p =
          (copies h.writeback h.params p).getLast?.getD (h.before.read p)) ∧
        ((∀ p, h.after.read p = h.before.read p) ↔
          ∀ p v, (copies h.writeback h.params p).getLast? = some v → h.before.read p = v) ∧
        ((∀ (i : Nat) (b : Binding), h.writeback[i]? = some (some b) →
          ∀ t ∈ h.args, host.Spares b.place t) → ∀ p, h.after.read p = h.before.read p)) := by
  intro kinds w host
  have undone : (compile (w.table "t") {} [] "kinds(x, x := 5)").toOption.map
      (fun program => (host.handovers program w.store).map fun h =>
        (h.before.store.scalar ⟨0⟩, h.after.store.scalar ⟨0⟩)) = some [(5, 1)] := by
    decide +kernel
  cases compiled : compile (w.table "t") {} [] "kinds(x, x := 5)" with
  | error ds =>
      rw [compiled] at undone
      cases undone
  | ok program =>
      rw [compiled] at undone
      have reached : w.Reached := ⟨_, rfl⟩
      exact ⟨program, rfl, Option.some.inj undone,
        (last_copies_stay reached ⟨[], rfl⟩ compiled none 100 1000 w.store).2⟩

end MathScript
