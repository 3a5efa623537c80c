import MathScript.Proofs.Beside

/-!
Acts on a frame. What a machine does is of two sorts: it reads and changes the slots of the
running frame, or it takes a sealed step, one that goes the same way whatever the slots hold and
whatever has been reported before. Whoever keeps the slots elsewhere acts as the machine does if
the slots are read and changed alike and sealed steps are handed on.
-/

namespace MathScript

namespace Machine

def framing (m : Machine) (locals : Array Value) : Machine := { m with locals := locals }

def told (m : Machine) (before : Array Access) : Machine :=
  { m with reports := before ++ m.reports }

end Machine

structure Sealed {α : Type} (x : Eval α) : Prop where
  frame : ∀ locals, Agree (fun m m' => m' = m.framing locals) x x
  reports : ∀ before, Agree (fun m m' => m' = m.told before) x x

def Place.IsSlot : Place → Prop
  | .slot .. => True
  | _ => False

/-- A slot is one of those told. -/
def Place.Within (slots : Nat → Prop) : Place → Prop
  | .slot i _ => slots i
  | _ => True

theorem Place.within_all (p : Place) : p.Within fun _ => True := by
  cases p <;> trivial

namespace Sealed

variable (host : Host)

theorem of_modify {f : Machine → Machine}
    (frame : ∀ m locals, f (m.framing locals) = (f m).framing locals)
    (reports : ∀ m before, f (m.told before) = (f m).told before) :
    Sealed (modify f : Eval PUnit) where
  frame locals := by
    rintro m _ rfl
    exact ⟨rfl, frame m locals⟩
  reports before := by
    rintro m _ rfl
    exact ⟨rfl, reports m before⟩

theorem bind {α β : Type} {x : Eval α} {f : α → Eval β} (first : Sealed x)
    (rest : ∀ a, Sealed (f a)) : Sealed (x >>= f) where
  frame locals := agree_bind (first.frame locals) fun a => (rest a).frame locals
  reports before := agree_bind (first.reports before) fun a => (rest a).reports before

theorem pure {α : Type} (a : α) : Sealed (pure a : Eval α) where
  frame _ := agree_pure a
  reports _ := agree_pure a

theorem throw {α : Type} (e : Signal) : Sealed (throw e : Eval α) where
  frame _ := agree_throw e
  reports _ := agree_throw e

theorem read {p : Place} (outside : ¬ p.IsSlot) : Sealed ((Acts.machine host).read p) where
  frame locals := by
    rintro m _ rfl
    cases p <;> first | exact ⟨rfl, rfl⟩ | exact absurd trivial outside
  reports before := by
    rintro m _ rfl
    cases p <;> exact ⟨rfl, rfl⟩

theorem setScalar {p : Place} (outside : ¬ p.IsSlot) (x : Float) :
    Sealed ((Acts.machine host).setScalar p x) := by
  cases p <;> first
    | exact Sealed.of_modify (fun _ _ => rfl) fun _ _ => rfl
    | exact absurd trivial outside

theorem modifyVector {p : Place} (outside : ¬ p.IsSlot) (f : Array Float → Array Float) :
    Sealed ((Acts.machine host).modifyVector p f) := by
  cases p <;> first
    | exact Sealed.of_modify (fun _ _ => rfl) fun _ _ => rfl
    | exact absurd trivial outside

theorem modifyString {p : Place} (outside : ¬ p.IsSlot) (f : String → String) :
    Sealed ((Acts.machine host).modifyString p f) := by
  cases p <;> first
    | exact Sealed.of_modify (fun _ _ => rfl) fun _ _ => rfl
    | exact absurd trivial outside

theorem numeric (native : Nat) (vs : List Value) :
    Sealed ((Acts.machine host).numeric native vs) where
  frame locals := by
    rintro m _ rfl
    simp only [Acts.machine, Eval.callNumeric, Machine.framing]
    split <;> exact ⟨rfl, rfl⟩
  reports before := by
    rintro m _ rfl
    simp only [Acts.machine, Eval.callNumeric, Machine.told]
    split <;> exact ⟨rfl, rfl⟩

theorem ask (native overload : Nat) (vs : List Value) :
    Sealed (Eval.ask host native overload vs) where
  frame locals := by
    rintro m _ rfl
    simp only [Eval.ask, Machine.framing]
    split <;> exact ⟨rfl, rfl⟩
  reports before := by
    rintro m _ rfl
    simp only [Eval.ask, Machine.told]
    split <;> exact ⟨rfl, rfl⟩

theorem answer (native overload : Nat) (vs : List Value) :
    Sealed ((Acts.machine host).ask native overload vs) := by
  apply Sealed.bind (Sealed.ask host native overload vs)
  intro reply
  match reply with
  | none => exact Sealed.pure _
  | some ⟨.error f, _, _⟩ => exact Sealed.throw _
  | some ⟨.ok x, params, _⟩ => exact Sealed.pure _

theorem report (b : Binding) (length : Nat) (index : Int) :
    Sealed ((Acts.machine host).report b length index) := by
  simp only [Acts.machine, Eval.report]
  cases host.check with
  | none => exact Sealed.pure _
  | some c =>
      have kept :
          Sealed (modifyGet fun m : Machine => (m.store.memory c.memory, m) : Eval Nat) := by
        constructor
        · rintro locals m _ rfl
          exact ⟨rfl, rfl⟩
        · rintro before m _ rfl
          exact ⟨rfl, rfl⟩
      apply Sealed.bind kept
      intro memory
      have pushed : Sealed (modify fun m => { m.setMemory c.memory (c.judge memory
          ⟨b.name, index, length⟩).2 with reports := m.reports.push ⟨b.name, index, length⟩ } :
            Eval PUnit) := by
        apply Sealed.of_modify
        · exact fun _ _ => rfl
        · intro m before
          simp [Machine.told, Machine.setMemory]
      apply Sealed.bind pushed
      intro _
      cases (c.judge memory ⟨b.name, index, length⟩).1 with
      | none => exact Sealed.pure _
      | some f => exact Sealed.throw _

end Sealed

/-! ### Slots kept elsewhere -/

/-- What becomes of the vector a slot may hold. -/
def Value.mapVector (f : Array Float → Array Float) : Value → Value
  | .vector xs => .vector (f xs)
  | other => other

def Value.mapString (f : String → String) : Value → Value
  | .string s => .string (f s)
  | other => other

namespace Acts

variable {σ τ : Type}

/-- The acts of a machine whose slots are read and changed in a way of their own. -/
def framed (slot : Nat → Flow σ Value) (change : Nat → (Value → Value) → Flow σ Unit)
    (hand : ∀ {α : Type}, Eval α → Flow σ α) (host : Host) : Acts σ where
  read p :=
    match p with
    | .slot i _ => slot i
    | p => hand ((machine host).read p)
  setScalar p x :=
    match p with
    | .slot i _ => change i fun _ => .scalar x
    | p => hand ((machine host).setScalar p x)
  modifyVector p f :=
    match p with
    | .slot i _ => change i (Value.mapVector f)
    | p => hand ((machine host).modifyVector p f)
  modifyString p f :=
    match p with
    | .slot i _ => change i (Value.mapString f)
    | p => hand ((machine host).modifyString p f)
  declare i v := change i fun _ => v
  numeric native vs := hand ((machine host).numeric native vs)
  ask native overload vs := hand ((machine host).ask native overload vs)
  report b length index := hand ((machine host).report b length index)

theorem framed_inStep {Rel : ∀ {α : Type}, Flow σ α → Flow τ α → Prop} {slots : Nat → Prop}
    {slot : Nat → Flow σ Value} {slot' : Nat → Flow τ Value}
    {change : Nat → (Value → Value) → Flow σ Unit} {change' : Nat → (Value → Value) → Flow τ Unit}
    {hand : ∀ {α : Type}, Eval α → Flow σ α} {hand' : ∀ {α : Type}, Eval α → Flow τ α}
    (host : Host) (reads : ∀ i, slots i → Rel (slot i) (slot' i))
    (changes : ∀ i f, slots i → Rel (change i f) (change' i f))
    (hands : ∀ {α : Type} (x : Eval α), Sealed x → Rel (hand x) (hand' x)) :
    (framed slot change hand host).InStep (framed slot' change' hand' host) Rel
      (Place.Within slots) slots where
  read p within := by
    cases p with
    | slot i kind => exact reads i within
    | _ => exact hands _ (Sealed.read host id)
  setScalar p x within := by
    cases p with
    | slot i kind => exact changes i _ within
    | _ => exact hands _ (Sealed.setScalar host id x)
  modifyVector p f within := by
    cases p with
    | slot i kind => exact changes i _ within
    | _ => exact hands _ (Sealed.modifyVector host id f)
  modifyString p f within := by
    cases p with
    | slot i kind => exact changes i _ within
    | _ => exact hands _ (Sealed.modifyString host id f)
  declare i v within := changes i _ within
  numeric native vs := hands _ (Sealed.numeric host native vs)
  ask native overload vs := hands _ (Sealed.answer host native overload vs)
  report b length index := hands _ (Sealed.report host b length index)

theorem InStep.everywhere {Rel : ∀ {α : Type}, Flow σ α → Flow τ α → Prop} {a : Acts σ}
    {b : Acts τ} (k : a.InStep b Rel (Place.Within fun _ => True) fun _ => True) :
    a.InStep b Rel (fun _ => True) fun _ => True :=
  k.mono (fun p _ => p.within_all) fun _ => id

end Acts

namespace Machine

def change (i : Nat) (f : Value → Value) : Eval Unit :=
  modify fun m => { m with locals := m.locals.modify i f }

theorem setIfInBounds_eq_modify {α : Type} (xs : Array α) (i : Nat) (x : α) :
    xs.setIfInBounds i x = xs.modify i fun _ => x := by
  apply Array.ext_getElem?
  intro j
  rw [Array.getElem?_setIfInBounds, Array.getElem?_modify]
  by_cases at_ : i = j
  · subst at_
    by_cases inside : i < xs.size <;> simp [inside]
  · simp [at_]

/-- A machine keeps its slots in its own frame and takes sealed steps itself. -/
theorem framed_eq (host : Host) :
    Acts.framed (fun i m => .ok (m.slot i) m) change (fun x => x) host = Acts.machine host := by
  apply Acts.ext
  · funext p
    cases p <;> rfl
  · funext p x
    cases p with
    | slot i kind =>
        change modify _ = modify _
        simp only [Machine.setScalar, setIfInBounds_eq_modify]
    | _ => rfl
  · funext p f
    cases p <;> rfl
  · funext p f
    cases p <;> rfl
  · funext i v
    change modify _ = modify _
    simp only [Machine.declare, setIfInBounds_eq_modify]
  all_goals rfl

end Machine

end MathScript
