import MathScript.Proofs.Fitting
import MathScript.Proofs.Stack
import MathScript.Proofs.Unfolding

/-!
Calls are isolated. The machine gives every body a frame of its own; on one stack for all frames
a compiled program runs the same, since its slots fit into its frame. There a call leaves every
frame below as it was, and it finds nothing of them.
-/

namespace MathScript

/-! ### Slots that fit -/

/-- Every slot that is read, written or declared is one of the frame. -/
def Program.Framed (p : Program) : Prop :=
  p.tree.Every (Tree.Fits (fun b => b.place.Within (· < p.frameSize))
    (fun i _ => i < p.frameSize) fun _ => True)

theorem Binding.InScope.within {offers : Grant → Prop} {layout : List Slot} {live : List Nat}
    {b : Binding} (scope : b.InScope offers layout live) :
    b.place.Within (· < layout.length) := by
  unfold InScope at scope
  cases place_eq : b.place with
  | slot i kind =>
      rw [place_eq] at scope
      obtain ⟨bound, -⟩ := List.getElem?_eq_some_iff.mp scope.2
      exact bound
  | scalar | constant | vector | string => trivial

theorem Program.BuiltFor.framed {offers : Grant → Prop} {arity : Nat} {p : Program}
    (built : p.BuiltFor offers arity) : p.Framed := by
  obtain ⟨layout, size, -, -, tree⟩ := built
  refine tree.laidOut.mono fun t fits => ⟨fun b member => ?_, fun d declared => ?_, by simp⟩
  · obtain ⟨live, scope⟩ := fits.bindings b member
    exact size ▸ scope.within
  · exact size ▸ inside_layout (fits.declares d declared)

theorem Program.Settles.framed {p q : Program} (settles : p.Settles q) (framed : q.Framed) :
    p.Framed := by
  obtain ⟨folding, tree_eq, size_eq⟩ := settles
  unfold Framed
  rw [tree_eq, size_eq]
  cases folding with
  | false => exact framed
  | true => exact Tree.Every.fold framed

/-- Whatever has been compiled fits into its frame. -/
theorem Program.Compiled.framed {offers : Grant → Prop} {arity : Nat} {p : Program}
    (compiled : p.Compiled offers arity) : p.Framed := by
  obtain ⟨⟨q, settles, -, built⟩, -⟩ := compiled
  exact settles.framed built.framed

theorem World.Sound.bodies_framed {w : World} (sound : w.Sound) {check : Option Check}
    {limit rounds n : Nat} {p : Program}
    (found : (w.host check limit rounds).body? n = some p) : p.Framed := by
  obtain ⟨f, inside, rfl⟩ := World.body_function found
  exact (sound.functions n f inside).framed

/-! ### The machine on a stack -/

namespace Stack

/-- The running body finds on the stack what it finds on the machine: `room` slots at least, and
`depth` bodies running. -/
structure Carries (room depth : Nat) (m : Machine) (s : Stack) : Prop where
  store : s.store = m.store
  reports : s.reports = m.reports
  depth : s.depth = depth
  room : room ≤ m.locals.size
  slots : ∀ j, s.slot? j = m.locals[j]?

variable {room depth : Nat} {m : Machine} {s : Stack}

/-- A slot of the frame is there when it is reached. -/
theorem Carries.reach (carries : Carries room depth m s) {i : Nat} (within : i < room) :
    s.reach i = s := by
  have inside : i < m.locals.size := Nat.lt_of_lt_of_le within carries.room
  have present := carries.slots i
  rw [slot?, Array.getElem?_eq_getElem inside] at present
  obtain ⟨reached, -⟩ := Array.getElem?_eq_some_iff.mp present
  have none_missing : s.base + i + 1 - s.values.size = 0 := by omega
  simp [Stack.reach, none_missing]

theorem Carries.alter (carries : Carries room depth m s) {i : Nat} (within : i < room)
    (f : Value → Value) :
    Carries room depth { m with locals := m.locals.modify i f } (s.alter i f) where
  store := carries.store
  reports := carries.reports
  depth := carries.depth
  room := by simpa using carries.room
  slots j := by
    rw [slot?_alter, carries.reach within, carries.slots, Array.getElem?_modify]

theorem carries_hand {α : Type} {x : Eval α} (same : Sealed x) :
    Agree (Carries room depth) x (hand x) := by
  intro m s carries
  have reports_eq : s.reports = #[] ++ m.reports := by simp [carries.reports]
  refine (hand_sealed same carries.store reports_eq).mono ?_
  rintro m' _ ⟨locals_eq, rfl⟩
  exact ⟨rfl, by simp, carries.depth, locals_eq ▸ carries.room,
    fun j => locals_eq ▸ carries.slots j⟩

theorem acts_carry (host : Host) :
    (Acts.machine host).InStep (acts host)
      (fun {α} (x : Eval α) (y : Flow Stack α) => Agree (Carries room depth) x y)
      (Place.Within (· < room)) (· < room) := by
  rw [← Machine.framed_eq]
  apply Acts.framed_inStep host
  · intro i within m s carries
    refine ⟨?_, ?_⟩
    · simp only [Machine.slot, carries.reach within, carries.slots, Array.getD_eq_getD_getElem?]
    · rw [carries.reach within]
      exact carries
  · exact fun i f within m s carries => ⟨rfl, carries.alter within f⟩
  · exact fun x same => carries_hand same

/-- A body with a frame of its own goes as on a stack, and so do the calls in it. -/
theorem walk_carries {host : Host} {calls : Nat} {p : Program} (framed : p.Framed)
    (invokes : ∀ n q, host.body? n = some q → ∀ name args,
      Agree (Carries p.frameSize depth) ((Machine.kernel host).invoke host calls name q args)
        (invoke host calls name q args)) :
    Agree (Carries p.frameSize depth)
      (p.tree.walk (Machine.kernel host) host ((Machine.kernel host).invoke host calls))
      (p.tree.walk (kernel host) host (invoke host calls)) := by
  have l := agree_lockstep (Carries p.frameSize depth)
  have k := (acts_carry host).kernel l.toStepwise Host.enter enter
  rw [Acts.Machine.kernel_machine] at k
  exact k.walk l (.inl rfl) (fun _ => rfl) (fun n q _ => invokes n q) framed

theorem frame_size (p : Program) (args : List Float) :
    p.frameSize ≤ (Host.frame p args).size := by
  simp [Host.frame]
  omega

theorem invoke_carries {host : Host} (bodies : ∀ n p, host.body? n = some p → p.Framed)
    {calls : Nat} (left : depth + calls = host.limit) (name : String) {p : Program}
    (framed : p.Framed) (args : List Float) :
    Agree (Carries room depth) ((Machine.kernel host).invoke host calls name p args)
      (invoke host calls name p args) := by
  intro m s carries
  induction calls generalizing room depth name p args m s with
  | zero =>
      have refused : host.limit ≤ s.depth := by
        have := carries.depth
        omega
      simp only [invoke, refused, if_true]
      exact ⟨rfl, carries⟩
  | succ calls ih =>
      have allowed : ¬ host.limit ≤ s.depth := by
        have := carries.depth
        omega
      have body : Agree (Carries p.frameSize (depth + 1)) _ _ :=
        walk_carries framed fun n q found name args m s carries =>
          ih (by omega) name (bodies n q found) args m s carries
      have entered : Carries p.frameSize (depth + 1)
          { m with locals := Host.frame p args } (s.into p args) := by
        refine ⟨carries.store, carries.reports, congrArg (· + 1) carries.depth, frame_size p args,
          fun j => ?_⟩
        have above : ¬ s.values.size + j < s.values.size := by omega
        simp [slot?, into, Array.getElem?_append, above]
      have ends : SameEnd (fun m' s' => s'.store = m'.store ∧ s'.reports = m'.reports ∧
            m'.locals = m.locals)
          ((Machine.kernel host).invoke host (calls + 1) name p args m)
          (invoke host (calls + 1) name p args s) := by
        have called : (Machine.kernel host).invoke host (calls + 1) name p args =
            Host.enter p args (p.tree.walk (Machine.kernel host) host
              ((Machine.kernel host).invoke host calls)) := rfl
        simp only [called, invoke, allowed, if_false, Host.enter, enter]
        apply Flow.sameEnd_enter (K := Carries p.frameSize (depth + 1))
        · exact body _ _ entered
        · exact fun m' s' carries => ⟨carries.store, carries.reports, rfl⟩
      refine ends.with_ends ends_true (invoke_intact host (calls + 1) name p args s) ?_
      rintro m' s' ⟨store_eq, reports_eq, locals_eq⟩ - ⟨base, depth_eq, values⟩
      refine ⟨store_eq, reports_eq, depth_eq.trans carries.depth, locals_eq ▸ carries.room,
        fun j => ?_⟩
      rw [slot?, base, values, locals_eq]
      exact carries.slots j

end Stack

/-- A program whose slots fit runs on one stack as on the machine, if those it calls fit too. -/
theorem Host.runOnStack_eq {host : Host} (bodies : ∀ n p, host.body? n = some p → p.Framed)
    {p : Program} (framed : p.Framed) (store : Store) :
    host.runOnStack p store = host.run p store := by
  have body := Stack.walk_carries framed fun n q found name args =>
    Stack.invoke_carries bodies (Nat.zero_add host.limit) name (bodies n q found) args
  have start : Stack.Carries p.frameSize 0 (Host.start p store) (Stack.blank p store) :=
    ⟨rfl, rfl, rfl, Stack.frame_size p [], fun j => by simp [Stack.slot?, Stack.blank, Host.start]⟩
  have same := body _ _ start
  rw [run_eq]
  exact (reportOf_eq same.outcome same.state.store.symm
    (congrArg Array.toList same.state.reports.symm)).symm

/-- A call from a stack is isolated. However it ends, the base, the count of bodies and the whole
stack are as they were; and from any other stack with the same storage and count it ends alike,
leaves the same storage and reports the same accesses. -/
structure Stack.Isolated (host : Host) (calls : Nat) (name : String) (callee : Program)
    (args : List Float) (s : Stack) : Prop where
  intact : Ends (invoke host calls name callee args) s
    (fun _ s' => s'.base = s.base ∧ s'.depth = s.depth ∧ s'.values = s.values)
    fun _ s' => s'.base = s.base ∧ s'.depth = s.depth ∧ s'.values = s.values
  alike : ∀ t : Stack, s.store = t.store → s.depth = t.depth →
    SameEnd (fun s' t' => s'.store = t'.store ∧
        ∃ told, s'.reports = s.reports ++ told ∧ t'.reports = t.reports ++ told)
      (invoke host calls name callee args s) (invoke host calls name callee args t)

/-- Calls are isolated: a compiled program runs on one stack for all frames as on the machine,
and there every call is isolated, from whatever stack it is made. -/
theorem calls_isolated {w w' : World} (reached : w.Reached) (later : w'.Follows w)
    {table text : String} {settings : Settings} {program : Program}
    (compiled : compile (w.table table) settings [] text = .ok program)
    (check : Option Check) (limit rounds : Nat) (store : Store) :
    (w'.host check limit rounds).runOnStack program store =
      (w'.host check limit rounds).run program store ∧
    ∀ calls name callee args s,
      Stack.Isolated (w'.host check limit rounds) calls name callee args s := by
  constructor
  · apply Host.runOnStack_eq
    · exact fun n p found => (later.since reached.sound).sound.bodies_framed found
    · exact (compile_compiled compiled).framed
  · intro calls name callee args s
    refine ⟨Stack.invoke_intact _ calls name callee args s, fun t store_eq depth_eq => ?_⟩
    exact Stack.invoke_told _ calls name callee args depth_eq ⟨store_eq, #[], by simp, by simp⟩

/-- A function that calls itself in an argument, from a body with a local of its own. -/
theorem calls_isolated_of_recursion :
    let w := World.empty.run
      [.define "t" [⟨"nest", ["n"], "var k := n; if (n < 1) 0 else k + nest(nest(0) + n - 1)"⟩]]
    let w' := w.run [.freeze "t"]
    ∃ program,
      compile (w.table "t") {} [] "var x := 2; nest(3) + x" = .ok program ∧
      (w'.host none 100 1000).runOnStack program Store.empty =
        (w'.host none 100 1000).run program Store.empty ∧
      ∀ calls name callee args s,
        Stack.Isolated (w'.host none 100 1000) calls name callee args s := by
  intro w w'
  have accepted : (compile (w.table "t") {} []
      "var x := 2; nest(3) + x").toOption.isSome = true := by
    decide +kernel
  obtain ⟨program, compiled⟩ := compile_accepted accepted
  exact ⟨program, compiled,
    calls_isolated ⟨_, rfl⟩ ⟨[.freeze "t"], rfl⟩ compiled none 100 1000 Store.empty⟩

end MathScript
