import MathScript.Proofs.Lockstep

/-!
Acts. What the steps of a machine come down to: reading and writing a place, calling a native
function, and reporting an access outside of a vector. Whoever acts on a state of any kind takes
the steps of a kernel, put together here once for all of them; a relation of the acts is a
relation of the kernels.
-/

namespace MathScript

@[ext] structure Acts (σ : Type) where
  read : Place → Flow σ Value
  setScalar : Place → Float → Flow σ Unit
  modifyVector : Place → (Array Float → Array Float) → Flow σ Unit
  modifyString : Place → (String → String) → Flow σ Unit
  declare : Nat → Value → Flow σ Unit
  numeric : Nat → List Value → Flow σ Value
  ask : Nat → Nat → List Value → Flow σ (Option (Float × List Param))
  report : Binding → Nat → Int → Flow σ Unit

namespace Acts

section

variable {σ : Type} (a : Acts σ)

def vectorOf (b : Binding) : Flow σ (Array Float) := do
  return match ← a.read b.place with
    | .vector xs => xs
    | _ => #[]

def stringOf (b : Binding) : Flow σ String := do return (← a.read b.place).asString

def element? (b : Binding) (index : Float) : Flow σ (Option Float) := do
  let xs ← a.vectorOf b
  match Eval.elementAt? xs (Index.ofFloat index) with
  | some x => return some x
  | none =>
      a.report b xs.size (Index.ofFloat index)
      return none

def element (b : Binding) (index : Float) : Flow σ Value := do
  match b.kind with
  | .string => return .string (Range.substring (← a.stringOf b) index index)
  | _ => return .scalar ((← a.element? b index).getD notNumber)

def reportBound (b : Binding) (length : Nat) : Option Float → Flow σ Unit
  | none => pure ()
  | some x => if Index.within length x then pure () else a.report b length (Index.ofFloat x)

def sliceVector (b : Binding) (first last : Option Float) : Flow σ Value := do
  let length := (← a.vectorOf b).size
  a.reportBound b length first
  a.reportBound b length last
  return .vector (Range.slice (← a.vectorOf b) (first.getD 0) (last.getD Eval.infinity))

def slice (b : Binding) (first last : Option Float) : Flow σ Value := do
  match b.kind with
  | .string =>
      return .string
        (Range.substring (← a.stringOf b) (first.getD 0) (last.getD Eval.infinity))
  | _ => a.sliceVector b first last

def size (b : Binding) : Flow σ Value := do
  match b.kind with
  | .vector => return .scalar (← a.vectorOf b).size.toFloat
  | .string => return .scalar (← a.stringOf b).length.toFloat
  | .scalar => return .scalar 1

def assignWhole (b : Binding) (op : AssignOp) (v : Value) : Flow σ Value := do
  match b.kind with
  | .scalar =>
      let x := op.combine (← a.read b.place).asScalar v.asScalar
      a.setScalar b.place x
      return .scalar x
  | .vector =>
      a.modifyVector b.place fun old => Eval.combineVector op old v
      return .vector (← a.vectorOf b)
  | .string =>
      a.modifyString b.place fun old => Eval.combineString op old v.asString
      return .string (← a.stringOf b)

def setElement (b : Binding) (index : Float) (x : Float) : Flow σ Unit :=
  a.modifyVector b.place fun xs => Eval.setElementAt xs (Index.ofFloat index) x

def setRange (b : Binding) (first last : Option Float) (text : String) : Flow σ Unit :=
  a.modifyString b.place fun old =>
    Range.overwriteText old (first.getD 0) (last.getD Eval.infinity) text

def assign (target : Target Float) (op : AssignOp) (v : Value) : Flow σ Value := do
  match target with
  | .whole b => a.assignWhole b op v
  | .element b index =>
      match ← a.element? b index with
      | some current =>
          let x := op.combine current v.asScalar
          a.setElement b index x
          return .scalar x
      | none => return .scalar notNumber
  | .range b first last =>
      a.setRange b first last v.asString
      return .string (← a.stringOf b)

def readTarget : Target Float → Flow σ (Option Value)
  | .whole b => do return some (← a.read b.place)
  | .element b index => do return (← a.element? b index).map .scalar
  | .range b first last => do
      return some (.string
        (Range.substring (← a.stringOf b) (first.getD 0) (last.getD Eval.infinity)))

def writeWhole (b : Binding) : Value → Flow σ Unit
  | .vector new => a.modifyVector b.place fun old => Range.refill old new
  | .string new => a.modifyString b.place fun _ => new
  | other => a.setScalar b.place other.asScalar

def writeTarget (target : Target Float) (v : Value) : Flow σ Unit :=
  match target with
  | .whole b => a.writeWhole b v
  | .element b index => a.setElement b index v.asScalar
  | .range b first last => a.setRange b first last v.asString

def writeParam (b : Binding) (p : Param) : Flow σ Unit :=
  match b.kind, p with
  | .scalar, .scalar x => a.setScalar b.place x
  | .vector, .vector new => a.modifyVector b.place fun old => Range.refill old new
  | .string, .string new => a.modifyString b.place fun _ => new
  | _, _ => return ()

/-- A parameter of another kind than its variable is not written. -/
theorem writeParam_other {b : Binding} {p : Param} (different : p.kind ≠ b.kind) :
    a.writeParam b p = pure () := by
  unfold writeParam
  cases kind_eq : b.kind <;> cases p <;> first
    | rfl
    | exact absurd kind_eq.symm different

def writeBack : List Param → List (Option Binding) → Flow σ Unit
  | p :: params, some b :: bindings => do
      a.writeParam b p
      writeBack params bindings
  | _ :: params, none :: bindings => writeBack params bindings
  | _, _ => return ()

def callGeneric (native overload : Nat) (writeback : List (Option Binding))
    (args : List Value) : Flow σ Value := do
  match ← a.ask native overload args with
  | some (x, params) =>
      a.writeBack params writeback
      return .scalar x
  | none => return .null

/-- The kernel of whoever acts, given how a body is entered and left. -/
def kernel (enter : Program → List Float → Flow σ Value → Flow σ Float) : Kernel σ where
  load b := a.read b.place
  element := a.element
  slice := a.slice
  size := a.size
  assign := a.assign
  readTarget := a.readTarget
  writeTarget := a.writeTarget
  declare slot _ v := a.declare slot v
  numeric := a.numeric
  generic native overload writeback _ values := a.callGeneric native overload writeback values
  enter := enter
  applied _ _ _ := pure ()
  finished _ _ := pure ()

end

/-- What a generic native function yields, and the parameters as it leaves them. -/
def answer (host : Host) (native overload : Nat) (args : List Value) :
    Eval (Option (Float × List Param)) := do
  match ← Eval.ask host native overload args with
  | some ⟨.ok x, params, _⟩ => return some (x, params)
  | some ⟨.error f, _, _⟩ => throw (.fault f)
  | none => return none

/-- A machine acts on itself. -/
def machine (host : Host) : Acts Machine where
  read p m := .ok (m.read p) m
  setScalar p x := modify fun m => m.setScalar p x
  modifyVector p f := modify fun m => m.modifyVector p f
  modifyString p f := modify fun m => m.modifyString p f
  declare slot v := modify fun m => m.declare slot v
  numeric := Eval.callNumeric host
  ask := answer host
  report := Eval.report host.check

namespace Machine

variable (host : Host)

theorem writeTarget_machine : (machine host).writeTarget = Eval.writeTarget := by
  funext t v
  cases t with
  | whole b => cases v <;> rfl
  | element b x => rfl
  | range b x y => rfl

theorem writeParam_machine (b : Binding) (p : Param) :
    (machine host).writeParam b p = modify (Eval.writeBack [p] [some b]) := by
  cases kind_eq : b.kind <;> cases p <;>
    simp only [writeParam, Eval.writeBack, kind_eq, machine] <;> rfl

theorem writeBack_machine (params : List Param) (bindings : List (Option Binding)) :
    (machine host).writeBack params bindings = modify (Eval.writeBack params bindings) := by
  induction params generalizing bindings with
  | nil => cases bindings <;> rfl
  | cons p params ih =>
      cases bindings with
      | nil => rfl
      | cons b bindings =>
          cases b with
          | none => exact ih bindings
          | some b =>
              simp only [writeBack, writeParam_machine, ih]
              rfl

theorem callGeneric_machine : (machine host).callGeneric = Eval.callGeneric host := by
  funext native overload writeback args
  have ask_eq : (machine host).ask = answer host := rfl
  simp only [callGeneric, writeBack_machine, Eval.callGeneric, ask_eq, answer, bind_assoc]
  congr 1
  funext reply
  obtain _ | ⟨f | x, params, _⟩ := reply <;> rfl

/-- The kernel of the machine comes down to its acts. -/
theorem kernel_machine : (machine host).kernel Host.enter = Machine.kernel host := by
  simp only [kernel, callGeneric_machine, writeTarget_machine]
  rfl

end Machine

/-! ### Two that act in step -/

variable {σ τ : Type} {Rel : ∀ {α : Type}, Flow σ α → Flow τ α → Prop}
  {places : Place → Prop} {slots : Nat → Prop}

/-- Acts that are related, at such places and slots. -/
structure InStep (a : Acts σ) (b : Acts τ)
    (Rel : ∀ {α : Type}, Flow σ α → Flow τ α → Prop) (places : Place → Prop)
    (slots : Nat → Prop) : Prop where
  read : ∀ p, places p → Rel (a.read p) (b.read p)
  setScalar : ∀ p x, places p → Rel (a.setScalar p x) (b.setScalar p x)
  modifyVector : ∀ p f, places p → Rel (a.modifyVector p f) (b.modifyVector p f)
  modifyString : ∀ p f, places p → Rel (a.modifyString p f) (b.modifyString p f)
  declare : ∀ slot v, slots slot → Rel (a.declare slot v) (b.declare slot v)
  numeric : ∀ native vs, Rel (a.numeric native vs) (b.numeric native vs)
  ask : ∀ native overload vs, Rel (a.ask native overload vs) (b.ask native overload vs)
  report : ∀ v length index, Rel (a.report v length index) (b.report v length index)

namespace InStep

theorem mono {a : Acts σ} {b : Acts τ} {places' : Place → Prop} {slots' : Nat → Prop}
    (k : a.InStep b Rel places slots) (fewer : ∀ p, places' p → places p)
    (within : ∀ i, slots' i → slots i) : a.InStep b Rel places' slots' where
  read p at_ := k.read p (fewer p at_)
  setScalar p x at_ := k.setScalar p x (fewer p at_)
  modifyVector p f at_ := k.modifyVector p f (fewer p at_)
  modifyString p f at_ := k.modifyString p f (fewer p at_)
  declare i v at_ := k.declare i v (within i at_)
  numeric := k.numeric
  ask := k.ask
  report := k.report

variable {a : Acts σ} {b : Acts τ} (k : a.InStep b Rel places slots) (l : Stepwise Rel)
  {v : Binding}

include k l

theorem vectorOf (at_ : places v.place) : Rel (a.vectorOf v) (b.vectorOf v) :=
  l.bind (k.read v.place at_) fun _ => l.done _

theorem stringOf (at_ : places v.place) : Rel (a.stringOf v) (b.stringOf v) :=
  l.bind (k.read v.place at_) fun _ => l.done _

theorem element? (at_ : places v.place) (x : Float) : Rel (a.element? v x) (b.element? v x) := by
  apply l.bind (vectorOf k l at_)
  intro xs
  cases Eval.elementAt? xs (Index.ofFloat x) with
  | some y => exact l.done _
  | none => exact l.bind (k.report v _ _) fun _ => l.done none

theorem element (at_ : places v.place) (x : Float) : Rel (a.element v x) (b.element v x) := by
  unfold Acts.element
  cases v.kind with
  | string => exact l.bind (stringOf k l at_) fun s => l.done _
  | scalar => exact l.bind (element? k l at_ x) fun y => l.done _
  | vector => exact l.bind (element? k l at_ x) fun y => l.done _

theorem reportBound (length : Nat) (bound : Option Float) :
    Rel (a.reportBound v length bound) (b.reportBound v length bound) := by
  cases bound with
  | none => exact l.done ()
  | some x =>
      by_cases inside : Index.within length x
      · simp only [Acts.reportBound, inside, if_true]
        exact l.done ()
      · simp only [Acts.reportBound, inside]
        exact k.report v length _

theorem sliceVector (at_ : places v.place) (x y : Option Float) :
    Rel (a.sliceVector v x y) (b.sliceVector v x y) :=
  l.bind (vectorOf k l at_) fun _ => l.bind (reportBound k l _ x) fun _ =>
    l.bind (reportBound k l _ y) fun _ => l.bind (vectorOf k l at_) fun _ => l.done _

theorem slice (at_ : places v.place) (x y : Option Float) :
    Rel (a.slice v x y) (b.slice v x y) := by
  unfold Acts.slice
  cases v.kind with
  | string => exact l.bind (stringOf k l at_) fun s => l.done _
  | scalar => exact sliceVector k l at_ x y
  | vector => exact sliceVector k l at_ x y

theorem size (at_ : places v.place) : Rel (a.size v) (b.size v) := by
  unfold Acts.size
  cases v.kind with
  | vector => exact l.bind (vectorOf k l at_) fun xs => l.done _
  | string => exact l.bind (stringOf k l at_) fun s => l.done _
  | scalar => exact l.done _

theorem assignWhole (at_ : places v.place) (op : AssignOp) (value : Value) :
    Rel (a.assignWhole v op value) (b.assignWhole v op value) := by
  unfold Acts.assignWhole
  cases v.kind with
  | scalar =>
      exact l.bind (k.read v.place at_) fun old =>
        l.bind (k.setScalar v.place _ at_) fun _ => l.done _
  | vector =>
      exact l.bind (k.modifyVector v.place _ at_) fun _ =>
        l.bind (vectorOf k l at_) fun xs => l.done _
  | string =>
      exact l.bind (k.modifyString v.place _ at_) fun _ =>
        l.bind (stringOf k l at_) fun s => l.done _

theorem assign {t : Target Float} (at_ : places t.binding.place) (op : AssignOp)
    (value : Value) : Rel (a.assign t op value) (b.assign t op value) := by
  cases t with
  | whole v => exact assignWhole k l at_ op value
  | element v x =>
      apply l.bind (element? k l at_ x)
      intro found
      cases found with
      | none => exact l.done _
      | some current => exact l.bind (k.modifyVector v.place _ at_) fun _ => l.done _
  | range v x y =>
      exact l.bind (k.modifyString v.place _ at_) fun _ =>
        l.bind (stringOf k l at_) fun s => l.done _

theorem readTarget {t : Target Float} (at_ : places t.binding.place) :
    Rel (a.readTarget t) (b.readTarget t) := by
  cases t with
  | whole v => exact l.bind (k.read v.place at_) fun value => l.done _
  | element v x => exact l.bind (element? k l at_ x) fun found => l.done _
  | range v x y => exact l.bind (stringOf k l at_) fun s => l.done _

omit l in
theorem writeTarget {t : Target Float} (at_ : places t.binding.place) (value : Value) :
    Rel (a.writeTarget t value) (b.writeTarget t value) := by
  cases t with
  | whole v =>
      cases value with
      | vector new => exact k.modifyVector v.place _ at_
      | string new => exact k.modifyString v.place _ at_
      | null => exact k.setScalar v.place _ at_
      | scalar x => exact k.setScalar v.place _ at_
  | element v x => exact k.modifyVector v.place _ at_
  | range v x y => exact k.modifyString v.place _ at_

theorem writeParam (at_ : places v.place) (p : Param) :
    Rel (a.writeParam v p) (b.writeParam v p) := by
  unfold Acts.writeParam
  -- Only a parameter of the kind of its variable is written back.
  cases v.kind <;> cases p
  case scalar.scalar x => exact k.setScalar v.place x at_
  case vector.vector new => exact k.modifyVector v.place _ at_
  case string.string new => exact k.modifyString v.place _ at_
  all_goals exact l.done ()

theorem writeBack {bindings : List (Option Binding)}
    (at_ : ∀ v ∈ bindings.filterMap id, places v.place) (params : List Param) :
    Rel (a.writeBack params bindings) (b.writeBack params bindings) := by
  induction params generalizing bindings with
  | nil => exact l.done ()
  | cons p params ih =>
      cases bindings with
      | nil => exact l.done ()
      | cons v bindings =>
          cases v with
          | none => exact ih at_
          | some v =>
              simp only [List.filterMap_cons, id, List.mem_cons, forall_eq_or_imp] at at_
              exact l.bind (writeParam k l at_.1 p) fun _ => ih at_.2

theorem callGeneric {writeback : List (Option Binding)}
    (at_ : ∀ v ∈ writeback.filterMap id, places v.place) (native overload : Nat)
    (args : List Value) :
    Rel (a.callGeneric native overload writeback args)
      (b.callGeneric native overload writeback args) := by
  apply l.bind (k.ask native overload args)
  intro reply
  match reply with
  | none => exact l.done _
  | some (x, params) => exact l.bind (writeBack k l at_ params) fun _ => l.done _

/-- Acts in step make kernels in step. -/
theorem kernel (ea : Program → List Float → Flow σ Value → Flow σ Float)
    (eb : Program → List Float → Flow τ Value → Flow τ Float) :
    (a.kernel ea).InStep (b.kernel eb) Rel (fun v => places v.place) fun i _ => slots i where
  load v at_ := k.read v.place at_
  element _ x at_ := element k l at_ x
  slice _ x y at_ := slice k l at_ x y
  size _ at_ := size k l at_
  assign _ op v at_ := assign k l at_ op v
  readTarget _ at_ := readTarget k l at_
  writeTarget _ v at_ := writeTarget k at_ v
  declare slot _ value within _ := k.declare slot value within
  numeric := k.numeric
  generic native overload _ _ args at_ := callGeneric k l at_ native overload args
  applied _ _ _ := l.done ()
  finished _ _ := l.done ()

end InStep

end Acts

end MathScript
