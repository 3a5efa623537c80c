import MathScript.Proofs.Built
import MathScript.Proofs.Record
import MathScript.Proofs.Slots

/-!
What holds of a log, and the state of a tape that keeps it so. Bindings are in place, slots are
filled inside of the frame, calls of generic functions go to an alternative that the kinds of
their arguments chose. A moment is stray if a loop has yielded a vector or a string, or if an
operation starves; while none is, every node has kept the promise of its kind.
-/

namespace MathScript

namespace Moment

/-- Slot `i` is inside of the frame and holds a value of a kind that was put there. -/
def Holds (m : Moment) (i : Nat) (kind : Kind) : Prop :=
  i < m.frame.room ∧ (i, kind) ∈ m.frame.placed ∧
    ∃ v, m.locals[i]? = some v ∧ v.kind? = some kind

/-- A touched binding is used as what it is, with a local in its slot and no constant written;
a slot that is filled is one of the frame. -/
def InPlace (m : Moment) : Prop :=
  match m.event with
  | .touch b use writes => use = b.kind ∧
      match b.place with
      | .slot i kind => m.Holds i kind
      | .constant _ => writes = false
      | _ => True
  | .place slot _ => slot < m.frame.room ∧ slot < m.locals.size
  | _ => True

/-- What is written may be written. -/
def Licensed (m : Moment) : Prop :=
  match m.event with
  | .touch b _ writes => writes = true → b.writable = true
  | _ => True

/-- A generic function is offered values for arguments whose kinds chose the alternative. -/
def Chosen (offers : Grant → Prop) (m : Moment) : Prop :=
  match m.event with
  | .offer native overload args values => values.length = args.length ∧
      ∃ name signature, offers (.call name (.generic native signature)) ∧
        signature.resolve (args.map Tree.kind) = some overload
  | _ => True

/-- A node that completed yielded null or a value of its kind. -/
def Sound (m : Moment) : Prop :=
  match m.event with
  | .finish node v => v.Fits node.kind
  | _ => True

/-- A generic function was offered null or values of the kinds of its arguments. -/
def Fed (m : Moment) : Prop :=
  match m.event with
  | .offer _ _ args values => ∀ v a, (v, a) ∈ values.zip args → v.Fits a.kind
  | _ => True

end Moment

def Tree.isLoop : Tree → Bool
  | .whileLoop .. | .forLoop .. | .repeatLoop .. => true
  | _ => false

/-- The two ways out of the static kinds. -/
def Moment.Stray (m : Moment) : Prop :=
  match m.event with
  | .finish node v => node.isLoop = true ∧ ¬ v.Fits .scalar
  | .apply op args values => op.Starves args values
  | _ => False

def Clean (log : List Moment) : Prop := ∀ m ∈ log, ¬ m.Stray

theorem Clean.sub {log log' : List Moment} (clean : Clean log') (sub : log ⊆ log') : Clean log :=
  fun m inside => clean m (sub inside)

structure Kept (offers : Grant → Prop) (log : List Moment) : Prop where
  placed : ∀ m ∈ log, m.InPlace
  licensed : ∀ m ∈ log, m.Licensed
  chosen : ∀ m ∈ log, m.Chosen offers
  sound : Clean log → ∀ m ∈ log, m.Sound
  fed : Clean log → ∀ m ∈ log, m.Fed
  stray : ∀ m ∈ log, m.Stray → ∃ n ∈ log, ¬ n.Sound

namespace Kept

variable {offers : Grant → Prop} {log : List Moment}

theorem nil : Kept offers [] := by
  constructor <;> simp

/-- One more moment. -/
theorem cons {m : Moment} (kept : Kept offers log) (placed : m.InPlace)
    (licensed : m.Licensed) (chosen : m.Chosen offers) (sound : Clean (m :: log) → m.Sound)
    (fed : Clean (m :: log) → m.Fed) (stray : m.Stray → ¬ m.Sound) : Kept offers (m :: log) where
  placed := List.forall_mem_cons.mpr ⟨placed, kept.placed⟩
  licensed := List.forall_mem_cons.mpr ⟨licensed, kept.licensed⟩
  chosen := List.forall_mem_cons.mpr ⟨chosen, kept.chosen⟩
  sound clean := List.forall_mem_cons.mpr
    ⟨sound clean, kept.sound (clean.sub (List.subset_cons_self m log))⟩
  fed clean := List.forall_mem_cons.mpr
    ⟨fed clean, kept.fed (clean.sub (List.subset_cons_self m log))⟩
  stray n inside astray := by
    rcases List.mem_cons.mp inside with rfl | old
    · exact ⟨n, List.mem_cons_self, stray astray⟩
    · obtain ⟨unsound, found, broken⟩ := kept.stray n old astray
      exact ⟨unsound, List.mem_cons_of_mem _ found, broken⟩

/-- An operation and its node behind it. The operation may starve, for then the node breaks its
promise. -/
theorem operation {op : Operation} {args : List Tree} {values : List Value} {locals : Array Value}
    {frame : Frame} (kept : Kept offers log)
    (sound : ¬ op.Starves args values → Clean log →
      (op.result values).Fits (Tree.apply op args).kind) :
    Kept offers (⟨.finish (.apply op args) (op.result values), locals, frame⟩ ::
      ⟨.apply op args values, locals, frame⟩ :: log) where
  placed := by simpa [Moment.InPlace] using kept.placed
  licensed := by simpa [Moment.Licensed] using kept.licensed
  chosen := by simpa [Moment.Chosen] using kept.chosen
  -- The node is sound only if the operation is fed, which a clean log says of its moment.
  sound clean := by
    have before := clean.sub fun m inside => List.mem_cons_of_mem _ (List.mem_cons_of_mem _ inside)
    have fed : ¬ op.Starves args values :=
      clean ⟨.apply op args values, locals, frame⟩ (by simp)
    simpa [Moment.Sound] using ⟨sound fed before, kept.sound before⟩
  fed clean := by
    have before := clean.sub fun m inside => List.mem_cons_of_mem _ (List.mem_cons_of_mem _ inside)
    simpa [Moment.Fed] using kept.fed before
  stray n inside astray := by
    rcases List.mem_cons.mp inside with rfl | inside
    · exact absurd astray.1 (by simp [Tree.isLoop])
    · rcases List.mem_cons.mp inside with rfl | old
      · refine ⟨_, List.mem_cons_self, ?_⟩
        simpa [Moment.Sound, Tree.kind] using Operation.Starves.breaks astray
      · obtain ⟨unsound, found, broken⟩ := kept.stray n old astray
        exact ⟨unsound, by simp [found], broken⟩

end Kept

/-! ### The state -/

/-- The frame of a body laid out by `layout`, where the slots `live` are in use. -/
structure Sits (layout : List Slot) (live : List Nat) (t : Tape) : Prop where
  room : t.frame.room = layout.length
  bound : ∀ i, (t.machine.kindAt i).isSome ↔ i < layout.length
  held : ∀ i kind, t.machine.kindAt i = some (some kind) →
    layout[i]?.map Slot.kind = some kind ∧ (i, kind) ∈ t.frame.placed
  used : ∀ i ∈ live, ∃ kind, t.machine.kindAt i = some (some kind)

namespace Sits

variable {layout : List Slot} {live live' : List Nat} {t : Tape}

theorem fewer (sits : Sits layout live t) (less : live' ⊆ live) : Sits layout live' t :=
  { sits with used := fun i inside => sits.used i (less inside) }

theorem still {m : Machine} {log : List Moment} (sits : Sits layout live t)
    (kinds : ∀ i, m.kindAt i = t.machine.kindAt i) : Sits layout live ⟨m, t.frame, log⟩ where
  room := sits.room
  bound i := by simpa only [kinds i] using sits.bound i
  held i kind found := sits.held i kind ((kinds i).symm.trans found)
  used i inside := by
    obtain ⟨kind, found⟩ := sits.used i inside
    exact ⟨kind, (kinds i).trans found⟩

/-- A local in scope is in its slot. -/
theorem has {b : Binding} (sits : Sits layout live t) (scope : b.InScope offers layout live) :
    t.machine.Has b := by
  unfold Binding.InScope at scope
  unfold Machine.Has
  cases place_eq : b.place with
  | slot i kind =>
      rw [place_eq] at scope
      obtain ⟨other, found⟩ := sits.used i scope.1
      -- The slot is in use, so it holds something, and what it holds is of the layout's kind.
      have laid := (sits.held i other found).1
      rw [scope.2] at laid
      obtain rfl : kind = other := Option.some.inj laid
      exact found
  | scalar | constant | vector | string => trivial

theorem inPlace {b : Binding} {writes : Bool} (sits : Sits layout live t)
    (scope : b.InScope offers layout live) (writable : writes = true → b.writable = true) :
    Moment.InPlace ⟨.touch b b.kind writes, t.machine.locals, t.frame⟩ := by
  refine ⟨rfl, ?_⟩
  have has := sits.has scope
  unfold Machine.Has at has
  unfold Binding.InScope at scope
  cases place_eq : b.place with
  | slot i kind =>
      rw [place_eq] at has
      have inside := (sits.bound i).mp (by rw [has]; rfl)
      obtain ⟨v, found, known⟩ := Option.map_eq_some_iff.mp has
      exact ⟨by simpa [sits.room] using inside, (sits.held i kind has).2, v, found, known⟩
  | constant x =>
      rw [place_eq] at scope
      cases writes with
      | false => rfl
      | true => exact absurd (writable rfl) (by simp [scope])
  | scalar | vector | string => trivial

end Sits

structure Good (offers : Grant → Prop) (layout : List Slot) (live : List Nat) (t : Tape) :
    Prop where
  sits : Sits layout live t
  kept : Kept offers t.log

/-- A good state with more in its log. -/
structure Step (offers : Grant → Prop) (layout : List Slot) (live : List Nat)
    (s s' : Tape) : Prop where
  good : Good offers layout live s'
  grown : s.log ⊆ s'.log

/-- From a good state a step leads to one, and what it yields is as told. -/
def SteadyAt {α : Type} (offers : Grant → Prop) (layout : List Slot) (live : List Nat)
    (s : Tape) (x : Flow Tape α) (value : α → Tape → Prop) : Prop :=
  Good offers layout live s →
    Ends x s (fun a s' => Step offers layout live s s' ∧ value a s')
      fun _ s' => Step offers layout live s s'

def Steady {α : Type} (offers : Grant → Prop) (layout : List Slot) (live : List Nat)
    (x : Flow Tape α) (value : α → Tape → Prop) : Prop :=
  ∀ s, SteadyAt offers layout live s x value

/-- A value that fits a kind as long as nothing is stray. -/
def Suits (kind : Kind) (v : Value) (t : Tape) : Prop := Clean t.log → v.Fits kind

section

variable {offers : Grant → Prop} {layout : List Slot} {live live' : List Nat} {α β : Type}
  {s s' s'' : Tape}

theorem Step.refl (good : Good offers layout live s) : Step offers layout live s s :=
  ⟨good, List.Subset.refl _⟩

theorem Step.trans (first : Step offers layout live' s s')
    (second : Step offers layout live s' s'') : Step offers layout live s s'' :=
  ⟨second.good, List.Subset.trans first.grown second.grown⟩

theorem Good.fewer (good : Good offers layout live s) (less : live' ⊆ live) :
    Good offers layout live' s :=
  ⟨good.sits.fewer less, good.kept⟩

theorem Step.fewer (step : Step offers layout live s s') (less : live' ⊆ live) :
    Step offers layout live' s s' :=
  ⟨step.good.fewer less, step.grown⟩

theorem suits_of_kind {kind : Kind} {v : Value} (known : v.kind? = some kind) : Suits kind v s :=
  fun _ => .inr known

theorem steadyAt_pure {a : α} {value : α → Tape → Prop} (told : value a s) :
    SteadyAt offers layout live s (pure a) value :=
  fun good => ends_pure ⟨Step.refl good, told⟩

theorem steadyAt_throw {e : Signal} {value : α → Tape → Prop} :
    SteadyAt offers layout live s (throw e) value :=
  fun good => ends_throw (Step.refl good)

theorem SteadyAt.bind {x : Flow Tape α} {f : α → Flow Tape β} {value : α → Tape → Prop}
    {value' : β → Tape → Prop} (first : SteadyAt offers layout live s x value)
    (rest : ∀ a s', Step offers layout live s s' → value a s' →
      SteadyAt offers layout live s' (f a) value') :
    SteadyAt offers layout live s (x >>= f) value' := by
  intro good
  refine ends_bind ((first good).mono ?_ fun _ _ step => step)
  rintro a s' ⟨step, told⟩
  exact (rest a s' step told step.good).mono
    (fun b s'' after => ⟨step.trans after.1, after.2⟩) fun _ s'' after => step.trans after

theorem SteadyAt.mono {x : Flow Tape α} {value value' : α → Tape → Prop}
    (steady : SteadyAt offers layout live s x value)
    (weaker : ∀ a s', Step offers layout live s s' → value a s' → value' a s') :
    SteadyAt offers layout live s x value' :=
  fun good => (steady good).mono (fun a s' after => ⟨after.1, weaker a s' after.1 after.2⟩)
    fun _ _ => id

/-- Rounds of a loop go from step to step. -/
theorem Steady.keeps {x : Flow Tape α} {value : α → Tape → Prop}
    (steady : Steady offers layout live x value) (s : Tape) :
    Keeps (Step offers layout live s) x :=
  fun s' step => (steady s' step.good).mono (fun _ _ after => step.trans after.1)
    fun _ _ after => step.trans after

end

end MathScript
