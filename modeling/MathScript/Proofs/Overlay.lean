import MathScript.Proofs.Erase
import MathScript.Proofs.Shift
import MathScript.Proofs.Steady
import MathScript.Proofs.Tracks

/-!
A frame laid over another. A body runs in a frame of its own on the one side and in slots further
up a larger frame on the other, where slots it has not declared yet may hold anything. Both go
alike as long as everything the body touches is in place: a slot in place holds a value, and
values are the same on both sides. Whatever happens once something was out of place, its log
tells so.
-/

namespace MathScript

open Tree

/-! ### Slots further up -/

namespace Machine

theorem slot_modify (m : Machine) (i j : Nat) (f : Value → Value) :
    slot { m with locals := m.locals.modify i f } j =
      if i = j ∧ j < m.locals.size then f (m.slot j) else m.slot j := by
  simp only [slot, Array.getD_eq_getD_getElem?, Array.getElem?_modify]
  by_cases same : i = j
  · subst same
    by_cases inside : i < m.locals.size <;> simp [inside]
  · simp [same]

/-- The slots of the left frame lie in the right one from `k` on, but for those that are still
empty on the left and not known to agree. Around them the right frame is as it was. -/
structure Laid (k room : Nat) (before : Array Value) (sure : Nat → Prop) (m m' : Machine) :
    Prop where
  store : m'.store = m.store
  reports : m'.reports = m.reports
  size : m.locals.size = room
  above : k + room ≤ m'.locals.size
  slots : ∀ i < room, m'.slot (k + i) = m.slot i ∨ m.slot i = .null ∧ ¬ sure i
  total : m'.locals.size = before.size
  around : ∀ j, j < k ∨ k + room ≤ j → m'.locals[j]? = before[j]?

variable {k room : Nat} {before : Array Value} {sure sure' : Nat → Prop} {m m' : Machine}

theorem Laid.fewer (laid : Laid k room before sure m m') (less : ∀ i, sure' i → sure i) :
    Laid k room before sure' m m' :=
  { laid with
    slots := fun i inside => (laid.slots i inside).imp id fun ⟨empty, unsure⟩ =>
      ⟨empty, fun known => unsure (less i known)⟩ }

/-- A slot is changed on both sides, to one value. -/
theorem Laid.change (laid : Laid k room before sure m m') {i : Nat} {f : Value → Value}
    (same : f (m'.slot (k + i)) = f (m.slot i)) (inside : i < room) :
    Laid k room before sure { m with locals := m.locals.modify i f }
      { m' with locals := m'.locals.modify (k + i) f } where
  store := laid.store
  reports := laid.reports
  size := by simpa using laid.size
  above := by simpa using laid.above
  total := by simpa using laid.total
  slots j within := by
    have here : i < m.locals.size := laid.size ▸ inside
    have there : k + i < m'.locals.size := by
      have := laid.above
      omega
    rw [slot_modify, slot_modify]
    by_cases at_ : i = j
    · subst at_
      simp [here, there, same]
    · have apart : k + i ≠ k + j := by omega
      simpa [at_, apart] using laid.slots j within
  around j outside := by
    have apart : k + i ≠ j := by omega
    simpa [Array.getElem?_modify, apart] using laid.around j outside

/-- A step that goes the same way whatever the slots hold. -/
theorem agree_laid {α : Type} {x : Eval α}
    (blind : ∀ locals, Agree (fun m m' => m' = m.framing locals) x x) :
    Agree (Laid k room before sure) x x := by
  intro m m' laid
  have moved : m' = m.framing m'.locals := by
    obtain ⟨store, locals, reports⟩ := m'
    obtain ⟨rfl, rfl⟩ : store = m.store ∧ reports = m.reports := ⟨laid.store, laid.reports⟩
    rfl
  have ends := blind m'.locals m m' moved
  have still := (blind m.locals).fixed (s := m) rfl
  refine ends.with_ends still ends_true ?_
  rintro n _ rfl framed -
  have locals_eq : n.locals = (n.framing m.locals).locals := congrArg Machine.locals framed
  have slot_eq : ∀ i, n.slot i = m.slot i := fun i => by rw [slot, locals_eq]; rfl
  refine ⟨rfl, rfl, locals_eq ▸ laid.size, laid.above, fun i inside => ?_, laid.total,
    laid.around⟩
  rw [slot_eq]
  exact laid.slots i inside

/-- At slots that are known to agree, a machine and one that acts further up act alike. -/
theorem acts_laid (host : Host) (k room : Nat) (before : Array Value) (sure : Nat → Prop) :
    (Acts.machine host).InStep ((Acts.machine host).shift k)
      (fun {α} (x y : Eval α) => Agree (Laid k room before sure) x y)
      (Place.Within fun i => sure i ∧ i < room) fun i => sure i ∧ i < room := by
  have agreed : ∀ {m m' : Machine}, Laid k room before sure m m' → ∀ {i}, sure i → i < room →
      m'.slot (k + i) = m.slot i := fun laid _ known inside =>
    (laid.slots _ inside).resolve_right fun unsure => unsure.2 known
  rw [shift_framed, ← framed_eq]
  apply Acts.framed_inStep host
  · rintro i ⟨known, inside⟩ m m' laid
    exact ⟨(agreed laid known inside).symm, laid⟩
  · rintro i f ⟨known, inside⟩ m m' laid
    exact ⟨rfl, laid.change (congrArg f (agreed laid known inside)) inside⟩
  · exact fun x same => agree_laid same.frame

theorem kernel_laid (host : Host) (k room : Nat) (before : Array Value) (sure : Nat → Prop) :
    (kernel host).InStep ((kernel host).shift k)
      (fun {α} (x y : Eval α) => Agree (Laid k room before sure) x y)
      (fun b => b.place.Within fun i => sure i ∧ i < room) fun i _ => sure i ∧ i < room := by
  have kernels := (acts_laid host k room before sure).kernel (agree_lockstep _).toStepwise
    Host.enter Host.enter
  rwa [← Acts.kernel_shift, Acts.Machine.kernel_machine] at kernels

end Machine

/-! ### Steps of a body -/

namespace Tape

open Machine

/-- The machine of a tape lies in a larger one. -/
abbrev Lies (k room : Nat) (before : Array Value) : Tape → Machine → Prop :=
  Over (Laid k room before fun _ => False)

variable {k room : Nat} {before : Array Value}

theorem tracks_of_erases {α : Type} {x : Flow Tape α} {x' y : Eval α} (erases : Agree Erases x x')
    (same : Agree (Laid k room before fun _ => False) x' y)
    (stays : Keeps (Lost Moment.InPlace) x) :
    Tracks (Lies k room before) (Lost Moment.InPlace) x y := by
  refine .of_agree (fun t m lies => ?_) stays
  refine ((erases t t.machine rfl).trans (same t.machine m lies)).mono ?_
  rintro s m' ⟨_, rfl, laid⟩
  exact laid

/-- In place, the slot of a local holds a value, so it agrees with the one further up. -/
theorem tracks_placed {α : Type} {b : Binding} {use : Kind} {writes : Bool} {x y : Eval α}
    (same : ∀ sure, (b.place.Within fun i => sure i ∧ i < room) →
      Agree (Laid k room before sure) x y) :
    Tracks (Lies k room before) (Lost Moment.InPlace) (touching b use writes x) y := by
  refine tracks_touching fun m m' frame lies placed => ?_
  have there : ∀ i kind, b.place = .slot i kind →
      ∃ v, m.locals[i]? = some v ∧ v.kind? = some kind := by
    intro i kind place_eq
    have held := placed.2
    simp only [place_eq] at held
    exact held.2.2
  have within : b.place.Within fun i => (∃ kind, b.place = .slot i kind) ∧ i < room := by
    cases place_eq : b.place with
    | slot i kind =>
        obtain ⟨v, found, -⟩ := there i kind place_eq
        obtain ⟨inside, -⟩ := Array.getElem?_eq_some_iff.mp found
        exact ⟨⟨kind, rfl⟩, lies.size ▸ inside⟩
    | scalar | constant | vector | string => trivial
  have laid : Laid k room before (fun i => ∃ kind, b.place = .slot i kind) m m' := by
    refine { lies with slots := fun i inside => (lies.slots i inside).imp id ?_ }
    rintro ⟨empty, -⟩
    refine ⟨empty, ?_⟩
    rintro ⟨kind, place_eq⟩
    obtain ⟨v, found, known⟩ := there i kind place_eq
    obtain rfl : v = .null := by
      simpa [slot, Array.getD_eq_getD_getElem?, found] using empty
    cases known
  exact (same _ within m m' laid).mono fun _ _ laid' => laid'.fewer fun _ => False.elim

theorem tracks_declare (slot : Nat) (kind : Kind) (v : Value) :
    Tracks (Lies k room before) (Lost Moment.InPlace) (declare slot kind v)
      (modify fun m => m.declare (k + slot) v) := by
  refine tracks_note ?_ fun t m lies placed => .inl ⟨rfl, ?_⟩
  · exact keeps_bind (keeps_lift _) fun _ _ lost => ends_modify lost
  · have inside : slot < room := lies.size ▸ placed.2
    have changed := Laid.change (f := fun _ => v) lies rfl inside
    simpa only [Over, Machine.declare, setIfInBounds_eq_modify] using changed

theorem tracks_generic (host : Host) (native overload : Nat)
    (writeback : List (Option Binding)) (args : List Tree) (values : List Value) :
    Tracks (Lies k room before) (Lost Moment.InPlace)
      (callGeneric host native overload writeback args values)
      (((Acts.machine host).shift k).callGeneric native overload writeback values) := by
  apply tracks_callGeneric
  · exact (acts_laid host k room before fun _ => False).ask native overload values
  · intro b _ p same
    refine tracks_placed fun sure within => ?_
    rw [← Acts.Machine.writeParam_machine host]
    exact (acts_laid host k room before sure).writeParam (agree_lockstep _).toStepwise within p

/-- Every step of a recorded body is tracked further up, whatever it touches. -/
theorem kernel_tracks (host : Host) :
    (kernel host).InStep ((Machine.kernel host).shift k)
      (fun {α} (x : Flow Tape α) y => Tracks (Lies k room before) (Lost Moment.InPlace) x y)
      (fun _ => True) fun _ _ => True where
  load b _ := tracks_placed fun sure within => (Machine.kernel_laid host ..).load b within
  element b x _ :=
    tracks_placed fun sure within => (Machine.kernel_laid host ..).element b x within
  slice b x y _ :=
    tracks_placed fun sure within => (Machine.kernel_laid host ..).slice b x y within
  size b _ := tracks_placed fun sure within => (Machine.kernel_laid host ..).size b within
  assign t op v _ :=
    tracks_placed fun sure within => (Machine.kernel_laid host ..).assign t op v within
  readTarget t _ :=
    tracks_placed fun sure within => (Machine.kernel_laid host ..).readTarget t within
  writeTarget t v _ :=
    tracks_placed fun sure within => (Machine.kernel_laid host ..).writeTarget t v within
  declare slot shape v _ _ := tracks_declare slot shape.kind v
  numeric native vs := tracks_lift (agree_laid (Sealed.numeric host native vs).frame)
  generic native overload writeback args vs _ := by
    rw [← Acts.Machine.kernel_machine, Acts.kernel_shift]
    exact tracks_generic host native overload writeback args vs
  applied op args vs := tracks_note (keeps_pure ()) fun t m lies _ => .inl ⟨rfl, lies⟩
  finished t v := tracks_note (keeps_pure ()) fun t m lies _ => .inl ⟨rfl, lies⟩

end Tape

/-! ### Bodies -/

/-- An invocation finds nothing of the frame of its caller. -/
theorem Host.invoke_blind (host : Host) (depth : Nat) (name : String) (p : Program)
    (args : List Float) (locals : Array Value) :
    Agree (fun m m' => m' = m.framing locals) (host.invoke depth name p args)
      (host.invoke depth name p args) := by
  cases depth with
  | zero => exact agree_throw _
  | succ depth =>
      rintro m _ rfl
      simp only [invoke, enter]
      -- The frame of the caller is gone on both sides, so the body runs from one machine.
      refine Flow.sameEnd_enter (K := Eq) (agree_self _ _ _ rfl) ?_
      rintro m' _ rfl
      rfl

namespace Tape

open Machine Tree

variable {k room : Nat} {before : Array Value}

theorem invoke_erases (host : Host) (depth : Nat) (name : String) (p : Program)
    (args : List Float) :
    Agree Erases ((kernel host).invoke host depth name p args) (host.invoke depth name p args) := by
  have same := (kernel_erases host).invoke_alike host.settles_self depth name args
    (p.settle_settles false)
  rwa [Machine.invoke_kernel] at same

/-- Invocations are tracked, and with them the bodies they run, wherever these lie. -/
theorem invoke_tracks (host : Host) (depth : Nat) (name : String) (p : Program)
    (args : List Float) :
    Tracks (Lies k room before) (Lost Moment.InPlace)
      ((kernel host).invoke host depth name p args)
      (host.invoke depth name p args) := by
  refine tracks_of_erases (invoke_erases host depth name p args)
    (agree_laid (host.invoke_blind depth name p args)) ?_
  induction depth generalizing name p args with
  | zero => exact keeps_throw _
  | succ depth ih =>
      have body := (kernel_tracks host).walk_all
        (tracks_lockstep (Lies k room before) (Lost Moment.InPlace)) host
        (fun name p args => tracks_of_erases (invoke_erases host depth name p args)
          (agree_laid (host.invoke_blind depth name p args)) (ih name p args)) p.tree
      intro t lost
      exact Flow.ends_enter (body.stays _ lost) fun _ gone => gone

/-- A recorded body is tracked by its shifted tree. -/
theorem body_tracks (host : Host) (depth : Nat) (t : Tree) :
    Tracks (Lies k room before) (Lost Moment.InPlace)
      (t.walk (kernel host) host ((kernel host).invoke host depth))
      ((t.shift k).eval host (host.invoke depth)) := by
  rw [← Machine.walk_kernel, walk_shift]
  exact (kernel_tracks host).walk_all (tracks_lockstep _ _) host (invoke_tracks host depth) t

end Tape

end MathScript
