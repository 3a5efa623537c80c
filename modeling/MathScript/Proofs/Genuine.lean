import MathScript.Proofs.Observing

/-!
What a check is told about. An element is looked for at the index its number is truncated to, a
bound of a slice is compared as it is and truncated for the report alone. So what is reported of
an element is outside of the vector, and so is what is reported of a bound, unless the bound is
between minus one and zero: it is reported as zero.
-/

namespace MathScript

/-- The index is none of the vector. -/
def Access.Genuine (a : Access) : Prop := a.index < 0 ∨ (a.length : Int) ≤ a.index

instance (a : Access) : Decidable a.Genuine :=
  inferInstanceAs (Decidable (a.index < 0 ∨ (a.length : Int) ≤ a.index))

namespace Index

/-- Less than zero, and truncated to zero. -/
def Vanishes (x : Float) : Prop :=
  match Binary64.ofFloat x with
  | .finite negative significand exponent =>
      negative = true ∧ significand ≠ 0 ∧ Binary64.whole significand exponent = 0
  | _ => False

/-- More than any index. -/
def Exceeds (x : Float) : Prop :=
  match Binary64.ofFloat x with
  | .nan => False
  | .infinite negative => negative = false
  | .finite negative significand exponent =>
      negative = false ∧ greatest < Binary64.whole significand exponent

theorem whole_zero (exponent : Int) : Binary64.whole 0 exponent = 0 := by
  cases exponent <;> simp [Binary64.whole]

theorem Vanishes.index {x : Float} (vanishes : Vanishes x) : ofFloat x = 0 := by
  unfold Vanishes at vanishes
  unfold ofFloat
  cases read : Binary64.ofFloat x with
  | nan => simp [read] at vanishes
  | infinite negative => simp [read] at vanishes
  | finite negative significand exponent =>
      rw [read] at vanishes
      obtain ⟨rfl, -, whole⟩ := vanishes
      simp only [whole]
      rfl

/-- What is outside of a vector has an index outside of it, unless the index it is truncated to
is zero or it is held below the length. -/
theorem outside_iff {length : Nat} {x : Float} (outside : within length x = false) :
    (ofFloat x < 0 ∨ (length : Int) ≤ ofFloat x) ↔
      ¬ (Vanishes x ∧ 0 < length) ∧ ¬ (Exceeds x ∧ greatest < length) := by
  have greatest_eq : greatest = 9223372036854775807 := rfl
  have least_eq : least = -9223372036854775808 := rfl
  unfold within at outside
  unfold ofFloat Vanishes Exceeds
  cases read : Binary64.ofFloat x with
  | nan => simp [least_eq]
  | infinite negative =>
      cases negative with
      | true => simp [least_eq]
      | false =>
          simp [greatest_eq]
  | finite negative significand exponent =>
      simp only [read, Bool.and_eq_false_imp, Bool.or_eq_true, Bool.not_eq_true', beq_iff_eq,
        decide_eq_false_iff_not] at outside
      simp only [clamp, greatest_eq, least_eq, Binary64.applySign]
      cases negative with
      | false =>
          have beyond := outside (.inl rfl)
          simp only [Bool.false_eq_true, ↓reduceIte, false_and, not_false_eq_true, true_and,
            not_and]
          omega
      | true =>
          by_cases zero : significand = 0
          · have empty := outside (.inr zero)
            subst zero
            rw [whole_zero] at empty ⊢
            simp only [↓reduceIte, Int.cast_ofNat_Int, Int.neg_zero, ne_eq, not_true_eq_false,
              false_and, and_false, not_false_eq_true, Bool.true_eq_false, and_self, iff_true]
            omega
          · simp only [↓reduceIte, ne_eq, zero, not_false_eq_true, true_and, not_and,
              Bool.true_eq_false, false_and, and_true]
            omega

end Index

theorem elementAt_none {xs : Array Float} {i : Int} (none_found : Eval.elementAt? xs i = none) :
    i < 0 ∨ (xs.size : Int) ≤ i := by
  unfold Eval.elementAt? at none_found
  split at none_found
  · next negative => exact .inl negative
  · have := Array.getElem?_eq_none_iff.mp none_found
    omega

/-- Nothing is reported of what is written back. -/
theorem Acts.callGeneric_through {σ : Type} (lift : ∀ {α : Type}, Eval α → Flow σ α)
    (report report' : Binding → Nat → Int → Flow σ Unit) (host : Host) :
    (through lift report host).callGeneric = (through lift report' host).callGeneric := by
  have writes : (through lift report host).writeBack = (through lift report' host).writeBack := by
    funext params bindings
    induction params generalizing bindings with
    | nil => rfl
    | cons p params ih =>
        cases bindings with
        | nil => rfl
        | cons b bindings =>
            cases b with
            | none => exact ih bindings
            | some b =>
                simp only [writeBack, ih]
                rfl
  funext native overload writeback args
  simp only [callGeneric, writes]
  rfl

/-! ### Probes -/

/-- A reported access with the number it was asked for, as an element or as the bound of a
slice. -/
structure Probe where
  access : Access
  number : Float
  bound : Bool

namespace Probe

/-- The index is that of the number; the element was not found, or the bound is outside. -/
structure Missed (q : Probe) : Prop where
  index : q.access.index = Index.ofFloat q.number
  element : q.bound = false → q.access.Genuine
  bound : q.bound = true → Index.within q.access.length q.number = false

end Probe

/-- The number of an element that is a target. -/
def Target.number : Target Float → Float
  | .element _ x => x
  | .whole _ | .range .. => 0

namespace Beside

/-- A report, with the number noted in front of it. -/
def probe (c : Check) (x : Float) (bound : Bool) (b : Binding) (length : Nat) (index : Int) :
    Flow (Beside (List Probe)) Unit := do
  note fun _ seen => seen ++ [⟨⟨b.name, index, length⟩, x, bound⟩]
  lift (Eval.report (some c) b length index)

/-- What is done about the number `x`. -/
def asking (host : Host) (c : Check) (x : Float) (bound : Bool) : Acts (Beside (List Probe)) :=
  Acts.through lift (probe c x bound) host

def probeSlice (host : Host) (c : Check) (b : Binding) (first last : Option Float) :
    Flow (Beside (List Probe)) Value := do
  let length := (← (asking host c 0 true).vectorOf b).size
  (asking host c (first.getD 0) true).reportBound b length first
  (asking host c (last.getD 0) true).reportBound b length last
  return .vector (Range.slice (← (asking host c 0 true).vectorOf b) (first.getD 0)
    (last.getD Eval.infinity))

def probing (host : Host) (c : Check) : Kernel (Beside (List Probe)) :=
  { (asking host c 0 false).kernel (enter id fun _ seen => seen) with
    element b x := (asking host c x false).element b x
    slice b x y := if b.kind = .string then (asking host c 0 true).slice b x y
      else probeSlice host c b x y
    assign t := (asking host c t.number false).assign t
    readTarget t := (asking host c t.number false).readTarget t }

/-- What has been noted is what has been reported, and all of it was missed. -/
def Noted (m : Machine) (s : Beside (List Probe)) : Prop :=
  s.machine = m ∧ s.notes.map Probe.access = m.reports.toList ∧ ∀ q ∈ s.notes, q.Missed

section

variable {host : Host} {c : Check}

theorem agree_probe {x : Float} {bound : Bool} {b : Binding} {length : Nat} {index : Int}
    (missed : Probe.Missed ⟨⟨b.name, index, length⟩, x, bound⟩) :
    Agree Noted (Eval.report (some c) b length index) (probe c x bound b length index) := by
  refine agree_report (fun (seen : List Probe) reports =>
    seen.map Probe.access = reports.toList ∧ ∀ q ∈ seen, q.Missed) _ c b length index ?_
  rintro m seen ⟨told, all⟩
  refine ⟨by simp [told], fun q member => ?_⟩
  rcases List.mem_append.mp member with old | new
  · exact all q old
  · obtain rfl := List.mem_singleton.mp new
    exact missed

theorem agree_quiet {α : Type} {x : Eval α} (deaf : Deaf x) : Agree Noted x (lift x) :=
  agree_deaf (fun (seen : List Probe) reports =>
    seen.map Probe.access = reports.toList ∧ ∀ q ∈ seen, q.Missed) deaf

/-- Whoever reports nothing acts in step. -/
theorem silent_noted (host : Host) :
    (Acts.through (fun x => x) (fun _ _ _ => pure ()) host).InStep
      (Acts.through (lift (γ := List Probe)) (fun _ _ _ => pure ()) host)
      (fun {α} (x : Eval α) y => Agree Noted x y) (fun _ => True) fun _ => True :=
  Acts.through_inStep host (fun _ deaf => agree_quiet deaf) fun _ _ _ => agree_pure ()

theorem vectorOf_noted (x : Float) (bound : Bool) (b : Binding) :
    Agree Noted (Eval.vectorOf b) ((asking host c x bound).vectorOf b) :=
  (silent_noted host).vectorOf (agree_lockstep Noted).toStepwise trivial

theorem element?_noted (b : Binding) (x : Float) :
    Agree Noted (Eval.element? (some c) b x) ((asking host c x false).element? b x) := by
  refine agree_bind (vectorOf_noted x false b) fun xs => ?_
  cases found : Eval.elementAt? xs (Index.ofFloat x) with
  | some y => exact agree_pure _
  | none =>
      have missed : Probe.Missed ⟨⟨b.name, Index.ofFloat x, xs.size⟩, x, false⟩ :=
        ⟨rfl, fun _ => elementAt_none found, by simp⟩
      exact agree_bind (agree_probe missed) fun _ => agree_pure _

theorem element_noted (b : Binding) (x : Float) :
    Agree Noted (Eval.element (some c) b x) ((asking host c x false).element b x) := by
  unfold Eval.element Acts.element
  cases b.kind with
  | string =>
      exact agree_bind ((silent_noted host).stringOf (agree_lockstep Noted).toStepwise trivial)
        fun s => agree_pure _
  | scalar => exact agree_bind (element?_noted b x) fun y => agree_pure _
  | vector => exact agree_bind (element?_noted b x) fun y => agree_pure _

theorem reportBound_noted (b : Binding) (length : Nat) (bound : Option Float) :
    Agree Noted (Eval.reportBound (some c) b length bound)
      ((asking host c (bound.getD 0) true).reportBound b length bound) := by
  cases bound with
  | none => exact agree_pure ()
  | some x =>
      unfold Eval.reportBound Acts.reportBound
      by_cases inside : Index.within length x = true
      · simp only [inside, if_true]
        exact agree_pure ()
      · simp only [inside]
        exact agree_probe ⟨rfl, by simp, fun _ => by simpa using inside⟩

theorem slice_noted (b : Binding) (x y : Option Float) :
    Agree Noted (Eval.slice (some c) b x y) ((probing host c).slice b x y) := by
  have whole : Agree Noted ((do
      let length := (← Eval.vectorOf b).size
      Eval.reportBound (some c) b length x
      Eval.reportBound (some c) b length y
      return .vector (Range.slice (← Eval.vectorOf b) (x.getD 0) (y.getD Eval.infinity)) :
        Eval Value)) (probeSlice host c b x y) :=
    agree_bind (vectorOf_noted 0 true b) fun xs => agree_bind (reportBound_noted b xs.size x)
      fun _ => agree_bind (reportBound_noted b xs.size y) fun _ =>
        agree_bind (vectorOf_noted 0 true b) fun ys => agree_pure _
  cases kind_eq : b.kind with
  | string =>
      simp only [Eval.slice, probing, Acts.slice, kind_eq, if_true]
      exact agree_bind ((silent_noted host).stringOf (agree_lockstep Noted).toStepwise trivial)
        fun s => agree_pure _
  | scalar =>
      simp only [Eval.slice, probing, kind_eq, reduceCtorEq, if_false]
      exact whole
  | vector =>
      simp only [Eval.slice, probing, kind_eq, reduceCtorEq, if_false]
      exact whole

theorem assign_noted (t : Target Float) (op : AssignOp) (v : Value) :
    Agree Noted (Eval.assign (some c) t op v) ((asking host c t.number false).assign t op v) := by
  cases t with
  | whole b =>
      exact (silent_noted host).assignWhole (agree_lockstep Noted).toStepwise trivial op v
  | element b x =>
      refine agree_bind (element?_noted b x) fun found => ?_
      cases found with
      | none => exact agree_pure _
      | some current =>
          exact agree_bind ((silent_noted host).modifyVector b.place _ trivial) fun _ =>
            agree_pure _
  | range b x y =>
      exact agree_bind ((silent_noted host).modifyString b.place _ trivial) fun _ =>
        agree_bind ((silent_noted host).stringOf (agree_lockstep Noted).toStepwise trivial)
          fun s => agree_pure _

theorem readTarget_noted (t : Target Float) :
    Agree Noted (Eval.readTarget (some c) t) ((asking host c t.number false).readTarget t) := by
  cases t with
  | whole b => exact agree_bind ((silent_noted host).read b.place trivial) fun v => agree_pure _
  | element b x => exact agree_bind (element?_noted b x) fun found => agree_pure _
  | range b x y =>
      exact agree_bind ((silent_noted host).stringOf (agree_lockstep Noted).toStepwise trivial)
        fun s => agree_pure _

theorem probing_noted (host : Host) (c : Check) :
    (Machine.kernel (host.checked (some c))).InStep (probing host c)
      (fun {α} (x : Eval α) y => Agree Noted x y) (fun _ => True) fun _ _ => True := by
  have quiet := (silent_noted host).kernel (agree_lockstep Noted).toStepwise Host.enter
    (enter id fun _ seen => seen)
  rw [Machine.kernel_checked]
  exact { quiet with
    generic := fun native overload writeback args vs at_ => by
      have silent := quiet.generic native overload writeback args vs at_
      simp only [Acts.kernel] at silent
      rwa [Acts.callGeneric_through (fun x => x) _ (Eval.report (some c)),
        Acts.callGeneric_through lift _ (probe c 0 false)] at silent
    element := fun b x _ => element_noted b x
    slice := fun b x y _ => slice_noted b x y
    assign := fun t op v _ => assign_noted t op v
    readTarget := fun t _ => readTarget_noted t }

end

end Beside

/-- An evaluation from the top, with the number noted at every report. -/
def Host.probe (host : Host) (c : Check) (program : Program) (store : Store) :
    EStateM.Result Signal (Beside (List Probe)) Value :=
  (Beside.probing host c).run (host.checked (some c)) program ⟨start program store, []⟩

/-- What the check is told of in an evaluation, with the number each access was made with. -/
def Host.probes (host : Host) (c : Check) (program : Program) (store : Store) : List Probe :=
  (lastState (host.probe c program store)).notes

theorem Host.probe_noted (host : Host) (c : Check) (p : Program) (store : Store) :
    SameEnd Beside.Noted
      ((Machine.kernel (host.checked (some c))).run (host.checked (some c)) p (start p store))
      (host.probe c p store) := by
  apply (Beside.probing_noted host c).runs (agree_lockstep Beside.Noted)
  · exact .inl rfl
  · exact fun _ => rfl
  · intro p args x y same
    apply Flow.agree_enter same
    · rintro _ s ⟨rfl, noted⟩
      exact ⟨rfl, noted⟩
    · rintro _ s _ s' ⟨rfl, -⟩ ⟨rfl, noted⟩
      exact ⟨rfl, noted⟩
  · exact Nat.le_refl _
  · intro name y equal
    rw [equal rfl]
    exact agree_throw _
  · exact ⟨rfl, rfl, by simp⟩

/-- What a check is told of is outside of its vector, and the index it is told is outside too,
but for the bound of a slice that is less than zero and truncated to zero, and for one above all
indices in a vector that has more elements than there are indices. -/
theorem accesses_genuine (host : Host) (c : Check) (p : Program) (store : Store) :
    ((host.checked (some c)).run p store).accesses =
      (host.probes c p store).map Probe.access ∧
    ∀ q ∈ host.probes c p store, q.access.index = Index.ofFloat q.number ∧
      (Index.Vanishes q.number → q.access.index = 0) ∧
      (q.access.Genuine ↔ ¬ (q.bound = true ∧
        (Index.Vanishes q.number ∧ 0 < q.access.length ∨
          Index.Exceeds q.number ∧ Index.greatest < q.access.length))) := by
  have noted := host.probe_noted c p store
  obtain ⟨-, told, missed⟩ := noted.state
  constructor
  · rw [Host.run_eq]
    exact told.symm
  · intro q member
    obtain ⟨index, element, bound⟩ := missed q member
    refine ⟨index, fun vanishes => index.trans vanishes.index, ?_⟩
    cases asked : q.bound with
    | false => simpa using element asked
    | true =>
        have outside := Index.outside_iff (bound asked)
        rw [← index] at outside
        simpa [Access.Genuine, not_or] using outside

/-- As an index such a number finds the first element, as a bound it is reported, as zero. -/
theorem vanishing_bound {x : Float} (vanishes : Index.Vanishes x) (c : Check) {b : Binding}
    (vector : b.kind = .vector) {m : Machine} (there : 0 < (m.vectorAt b.place).size) :
    Eval.element (some c) b x m = .ok (.scalar (m.vectorAt b.place)[0]) m ∧
    (lastState (Eval.slice (some c) b (some x) none m)).reports =
      m.reports.push ⟨b.name, 0, (m.vectorAt b.place).size⟩ := by
  have outside : Index.within (m.vectorAt b.place).size x = false := by
    unfold Index.Vanishes at vanishes
    unfold Index.within
    cases read : Binary64.ofFloat x <;> simp_all
  constructor
  · have found : Eval.elementAt? (m.vectorAt b.place) (Index.ofFloat x) =
        some (m.vectorAt b.place)[0] := by
      rw [vanishes.index]
      simp [Eval.elementAt?, there]
    simp [Eval.element, vector, Eval.element?, Eval.vectorOf, bind, EStateM.bind, found]
    rfl
  · have sliced : Eval.slice (some c) b (some x) none m =
        (do
          Eval.report (some c) b (m.vectorAt b.place).size 0
          return .vector (Range.slice (← Eval.vectorOf b) x Eval.infinity) : Eval Value) m := by
      simp only [Eval.slice, vector, Eval.reportBound, bind, EStateM.bind, Eval.vectorOf, outside,
        vanishes.index]
      rfl
    rw [sliced]
    have told := report_reports c b (m.vectorAt b.place).size 0 m
    exact ends_lastState (I := fun m' : Machine => m'.reports = _).mp
      (ends_bind (told.mono (fun _ _ => id) fun _ _ => id))

end MathScript
