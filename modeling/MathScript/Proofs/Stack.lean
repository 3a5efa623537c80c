import MathScript.Proofs.Frames

/-!
One stack for all frames. The slots of all running bodies lie on one stack, those of the
innermost one from `base` on. A call puts a frame on the top, moves the base and counts one call
more; when its body ends, in whatever way, the count and the base are put back and the stack is
cut to what it was. A slot that is not there yet is made when it is reached.
-/

namespace MathScript

structure Stack where
  store : Store
  values : Array Value
  base : Nat
  depth : Nat
  reports : Array Access

namespace Stack

/-- The slots from the base on. -/
def slot? (s : Stack) (i : Nat) : Option Value := s.values[s.base + i]?

def reach (s : Stack) (i : Nat) : Stack :=
  { s with values := s.values ++ Array.replicate (s.base + i + 1 - s.values.size) Value.null }

def alter (i : Nat) (f : Value → Value) (s : Stack) : Stack :=
  { s.reach i with values := (s.reach i).values.modify (s.base + i) f }

def slot (i : Nat) : Flow Stack Value := fun s =>
  .ok (((s.reach i).slot? i).getD .null) (s.reach i)

def change (i : Nat) (f : Value → Value) : Flow Stack Unit := modify (alter i f)

/-- A step that has nothing to do with slots. -/
def hand {α : Type} (x : Eval α) : Flow Stack α := fun s =>
  match x ⟨s.store, #[], s.reports⟩ with
  | .ok a m => .ok a { s with store := m.store, reports := m.reports }
  | .error e m => .error e { s with store := m.store, reports := m.reports }

def into (program : Program) (args : List Float) (s : Stack) : Stack :=
  { s with
    values := s.values ++ Host.frame program args
    base := s.values.size
    depth := s.depth + 1 }

def back (before s : Stack) : Stack :=
  { s with
    values := s.values.extract 0 before.values.size
    base := before.base
    depth := s.depth - 1 }

def acts (host : Host) : Acts Stack := .framed slot change hand host

def enter (program : Program) (args : List Float) : Flow Stack Value → Flow Stack Float :=
  Flow.enter (into program args) back

def kernel (host : Host) : Kernel Stack := (acts host).kernel enter

/-- A call is refused once as many bodies are running as the limit allows; `calls` bounds how
deep calls may still go, which is never less than the limit leaves. -/
def invoke (host : Host) : Nat → Kernel.Invoking Stack
  | 0, name, _, _ => fun s =>
      if host.limit ≤ s.depth then .error (.fault (.recursionLimit name host.limit)) s
      else .error .tired s
  | calls + 1, name, program, args => fun s =>
      if host.limit ≤ s.depth then .error (.fault (.recursionLimit name host.limit)) s
      else enter program args (program.tree.walk (kernel host) host (invoke host calls)) s

/-- The stack on which an evaluation starts. -/
def blank (program : Program) (store : Store) : Stack :=
  ⟨store, Host.frame program [], 0, 0, #[]⟩

end Stack

/-- An evaluation from the top on a stack. -/
def Host.runOnStack (host : Host) (program : Program) (store : Store) : Report :=
  let r := program.tree.walk (Stack.kernel host) host (Stack.invoke host host.limit)
    (Stack.blank program store)
  ⟨outcomeOf r, (lastState r).store, (lastState r).reports.toList⟩

namespace Stack

/-! ### Reaching a slot -/

theorem slot?_reach (s : Stack) (i j : Nat) :
    (s.reach i).slot? j = (s.slot? j).or (if j ≤ i then some .null else none) := by
  simp only [slot?, reach, Array.getElem?_append, Array.getElem?_replicate]
  by_cases inside : s.base + j < s.values.size
  · simp [inside]
  · -- Only then the slots made new count: those up to the one that is reached.
    have missing : s.values[s.base + j]? = none := Array.getElem?_eq_none (by omega)
    simp only [inside, if_false, missing, Option.none_or]
    congr 1
    simp only [eq_iff_iff]
    omega

theorem slot?_alter (s : Stack) (i j : Nat) (f : Value → Value) :
    (s.alter i f).slot? j =
      if i = j then ((s.reach i).slot? j).map f else (s.reach i).slot? j := by
  simp only [slot?, alter, Array.getElem?_modify]
  have same : s.base + i = (s.reach i).base + j ↔ i = j := by simp [reach]
  simp only [same]

/-- What lies below the base is out of reach. -/
theorem below_reach {s : Stack} {j : Nat} (below : j < s.base) (i : Nat)
    (based : s.base ≤ s.values.size) : (s.reach i).values[j]? = s.values[j]? := by
  have inside : j < s.values.size := by omega
  simp [reach, Array.getElem?_append, inside]

theorem below_alter {s : Stack} {j : Nat} (below : j < s.base) (i : Nat) (f : Value → Value)
    (based : s.base ≤ s.values.size) : (s.alter i f).values[j]? = s.values[j]? := by
  have other : s.base + i ≠ j := by omega
  simp only [alter, Array.getElem?_modify, other, if_false]
  exact below_reach below i based

theorem size_reach (s : Stack) (i : Nat) : s.values.size ≤ (s.reach i).values.size := by
  simp [reach]

theorem size_alter (s : Stack) (i : Nat) (f : Value → Value) :
    s.values.size ≤ (s.alter i f).values.size := by
  simp only [alter, Array.size_modify]
  exact s.size_reach i

/-! ### A call gives the stack back -/

/-- The frames are as they were. -/
def Intact (before s : Stack) : Prop :=
  s.base = before.base ∧ s.depth = before.depth ∧ s.values = before.values

/-- A body that was called runs above the frames of its callers, and these are as they were. -/
structure Above (before s : Stack) : Prop where
  base : s.base = before.values.size
  depth : s.depth = before.depth + 1
  grown : before.values.size ≤ s.values.size
  below : ∀ j < before.values.size, s.values[j]? = before.values[j]?

theorem Above.back {before s : Stack} (above : Above before s) :
    Intact before (back before s) := by
  refine ⟨rfl, by simp [Stack.back, above.depth], ?_⟩
  apply Array.ext_getElem?
  intro j
  simp only [Stack.back, Array.getElem?_extract]
  by_cases below : j < before.values.size
  · have bounded : j < min before.values.size s.values.size := by
      have := above.grown
      omega
    simp [bounded, above.below j below]
  · have gone : before.values[j]? = none := Array.getElem?_eq_none (by omega)
    simp only [gone, ite_eq_right_iff, Array.getElem?_eq_none_iff]
    omega

theorem above_into (program : Program) (args : List Float) (s : Stack) :
    Above s (s.into program args) where
  base := rfl
  depth := rfl
  grown := by simp [into]
  below j inside := by simp [into, Array.getElem?_append, inside]

theorem Above.intact {before s s' : Stack} (above : Above before s) (intact : Intact s s') :
    Above before s' := by
  obtain ⟨base_eq, depth_eq, values_eq⟩ := intact
  exact ⟨base_eq ▸ above.base, depth_eq ▸ above.depth, values_eq ▸ above.grown,
    values_eq ▸ above.below⟩

theorem Above.reach {before s : Stack} (above : Above before s) (i : Nat) :
    Above before (s.reach i) where
  base := above.base
  depth := above.depth
  grown := Nat.le_trans above.grown (s.size_reach i)
  below j inside := by
    have based := above.base ▸ above.grown
    rw [below_reach (above.base ▸ inside) i based, above.below j inside]

theorem Above.alter {before s : Stack} (above : Above before s) (i : Nat) (f : Value → Value) :
    Above before (s.alter i f) where
  base := above.base
  depth := above.depth
  grown := Nat.le_trans above.grown (s.size_alter i f)
  below j inside := by
    have based := above.base ▸ above.grown
    rw [below_alter (above.base ▸ inside) i f based, above.below j inside]

theorem keeps_hand {I : Stack → Prop} {α : Type} (x : Eval α)
    (still : ∀ s store reports, I s → I { s with store := store, reports := reports }) :
    Keeps I (hand x) := by
  intro s held
  unfold Ends hand
  cases x ⟨s.store, #[], s.reports⟩ with
  | ok a m => exact still s _ _ held
  | error e m => exact still s _ _ held

theorem acts_above (host : Host) (before : Stack) :
    (acts host).InStep (acts host)
      (fun {α} (x : Flow Stack α) (_ : Flow Stack α) => Keeps (Above before) x)
      (Place.Within fun _ => True) fun _ => True := by
  apply Acts.framed_inStep host
  · exact fun i _ s above => above.reach i
  · exact fun i f _ s above => above.alter i f
  · exact fun x _ => keeps_hand x fun s _ _ above =>
      ⟨above.base, above.depth, above.grown, above.below⟩

/-- However a call ends, the base, the count of calls and the whole stack are as they were. -/
theorem invoke_intact (host : Host) (calls : Nat) (name : String) (program : Program)
    (args : List Float) (s : Stack) :
    Ends (invoke host calls name program args) s (fun _ => Intact s) fun _ => Intact s := by
  induction calls generalizing name program args s with
  | zero =>
      by_cases refused : host.limit ≤ s.depth <;>
        simp only [Ends, invoke, refused, if_true, if_false] <;> exact ⟨rfl, rfl, rfl⟩
  | succ calls ih =>
      by_cases refused : host.limit ≤ s.depth
      · simp only [Ends, invoke, refused, if_true]
        exact ⟨rfl, rfl, rfl⟩
      · have l := keeps_lockstep (Above s)
        have k := (acts_above host s).everywhere.kernel l.toStepwise enter enter
        have body : Keeps (Above s) (program.tree.walk (kernel host) host (invoke host calls)) := by
          apply Kernel.InStep.walk_self l k host
          intro name q args t above
          exact (ih name q args t).mono (fun _ _ => above.intact) fun _ _ => above.intact
        have entered := Flow.ends_enter (body _ (above_into program args s)) fun t => Above.back
        simpa only [Ends, invoke, refused, if_false, enter] using entered

/-! ### What a call depends on -/

/-- A sealed step handed on from a stack goes as it goes on a machine with the same storage. -/
theorem hand_sealed {α : Type} {x : Eval α} (same : Sealed x) {m : Machine} {s : Stack}
    {before : Array Access} (store_eq : s.store = m.store)
    (reports_eq : s.reports = before ++ m.reports) :
    SameEnd (fun m' s' => m'.locals = m.locals ∧
      s' = { s with store := m'.store, reports := before ++ m'.reports }) (x m) (hand x s) := by
  have start_eq : (m.framing #[]).told before = ⟨s.store, #[], s.reports⟩ := by
    rw [store_eq, reports_eq]
    rfl
  have handed : SameEnd (fun m' s' => s' = { s with store := m'.store, reports := m'.reports })
      (x ⟨s.store, #[], s.reports⟩) (hand x s) := by
    unfold hand
    cases x ⟨s.store, #[], s.reports⟩ <;> exact ⟨rfl, rfl⟩
  have unframed := same.frame #[] m _ rfl
  have untold := same.reports before (m.framing #[]) _ rfl
  rw [start_eq] at untold
  have still := (same.frame m.locals).fixed (s := m) rfl
  refine ((unframed.trans untold).trans handed).with_ends still ends_true ?_
  rintro m' s' ⟨_, ⟨_, rfl, rfl⟩, rfl⟩ framed -
  have locals_eq := congrArg Machine.locals framed
  exact ⟨locals_eq, rfl⟩

/-- Two stacks whose running bodies find the same: storage, slots and calls to go. Frames below
and reports made before may be whatever they are. -/
structure Alike (first second : Array Access) (s t : Stack) : Prop where
  store : s.store = t.store
  depth : s.depth = t.depth
  slots : ∀ j, s.slot? j = t.slot? j
  reports : ∃ told, s.reports = first ++ told ∧ t.reports = second ++ told

/-- Two stacks that a call leaves with the same storage and the same new reports. -/
def Told (first second : Array Access) (s t : Stack) : Prop :=
  s.store = t.store ∧ ∃ told, s.reports = first ++ told ∧ t.reports = second ++ told

variable {first second : Array Access}

theorem Alike.reach {s t : Stack} (alike : Alike first second s t) (i : Nat) :
    Alike first second (s.reach i) (t.reach i) where
  store := alike.store
  depth := alike.depth
  slots j := by rw [slot?_reach, slot?_reach, alike.slots]
  reports := alike.reports

theorem Alike.alter {s t : Stack} (alike : Alike first second s t) (i : Nat)
    (f : Value → Value) : Alike first second (s.alter i f) (t.alter i f) where
  store := alike.store
  depth := alike.depth
  slots j := by rw [slot?_alter, slot?_alter, (alike.reach i).slots]
  reports := alike.reports

theorem agree_hand {α : Type} {x : Eval α} (same : Sealed x) :
    Agree (Alike first second) (hand x) (hand x) := by
  intro s t alike
  obtain ⟨told, told_eq, told_eq'⟩ := alike.reports
  have left := hand_sealed same (m := ⟨s.store, #[], told⟩) rfl told_eq
  have right := hand_sealed same (m := ⟨s.store, #[], told⟩) alike.store.symm told_eq'
  refine (left.symm.trans right).mono ?_
  rintro _ _ ⟨m, ⟨-, rfl⟩, -, rfl⟩
  exact ⟨rfl, alike.depth, alike.slots, m.reports, rfl, rfl⟩

theorem acts_alike (host : Host) :
    (acts host).InStep (acts host)
      (fun {α} (x y : Flow Stack α) => Agree (Alike first second) x y)
      (Place.Within fun _ => True) fun _ => True := by
  apply Acts.framed_inStep host
  · rintro i - s t alike
    exact ⟨by rw [(alike.reach i).slots], alike.reach i⟩
  · exact fun i f _ s t alike => ⟨rfl, alike.alter i f⟩
  · exact fun x same => agree_hand same

/-- Called on stacks with the same storage and as many calls to go, a body ends alike, leaves the
same storage and reports the same accesses. -/
theorem invoke_told (host : Host) (calls : Nat) (name : String) (program : Program)
    (args : List Float) {s t : Stack} (depth_eq : s.depth = t.depth)
    (told : Told first second s t) :
    SameEnd (Told first second) (invoke host calls name program args s)
      (invoke host calls name program args t) := by
  induction calls generalizing name program args s t with
  | zero =>
      by_cases refused : host.limit ≤ t.depth <;>
        simp only [invoke, depth_eq, refused, if_true, if_false] <;> exact ⟨rfl, told⟩
  | succ calls ih =>
      by_cases refused : host.limit ≤ t.depth
      · simp only [invoke, depth_eq, refused, if_true]
        exact ⟨rfl, told⟩
      · have l := agree_lockstep (Alike first second)
        have k := (acts_alike host).everywhere.kernel l.toStepwise enter enter
        -- A call in the body leaves the frames of the body alone, on both stacks.
        have body : Agree (Alike first second)
            (program.tree.walk (kernel host) host (invoke host calls))
            (program.tree.walk (kernel host) host (invoke host calls)) := by
          apply k.walk_all l host
          intro name q args s t alike
          refine (ih name q args alike.depth ⟨alike.store, alike.reports⟩).with_ends
            (invoke_intact host calls name q args s) (invoke_intact host calls name q args t) ?_
          rintro s' t' ⟨store_eq, reports⟩ ⟨base, depth, values⟩ ⟨base', depth', values'⟩
          refine ⟨store_eq, by rw [depth, depth', alike.depth], fun j => ?_, reports⟩
          have slot_eq := alike.slots j
          simp only [slot?, base, values, base', values'] at slot_eq ⊢
          exact slot_eq
        have entered : Alike first second (s.into program args) (t.into program args) := by
          refine ⟨told.1, by simp [into, depth_eq], fun j => ?_, told.2⟩
          have above : ∀ size, ¬ size + j < size := fun size => by omega
          simp [slot?, into, Array.getElem?_append, above]
        simp only [invoke, depth_eq, refused, if_false, enter]
        exact Flow.sameEnd_enter (body _ _ entered) fun s' t' alike => ⟨alike.store, alike.reports⟩

end Stack

end MathScript
