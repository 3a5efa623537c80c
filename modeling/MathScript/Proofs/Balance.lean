import MathScript.Proofs.Abreast
import MathScript.Proofs.Christening
import MathScript.Proofs.Loops

/-!
A parser that counts the operands it is inside of. The parsing functions are told how an operand is
read, with so many levels of nesting left; here the levels are a count beside the state, which goes
up in front of an operand and down behind it, as the count of loops does in front of a body and
behind it. A run enters and leaves scopes, loops and operands one by one, and whether it ends well
or not, what it has entered it has left: the counts are what they were, and of the scopes only the
innermost may have gained names. Counting changes nothing: a run ends as the parser does that is
told how many levels are left.
-/

namespace MathScript.Parse

/-- A state, and how many operands are being read. -/
structure Tally where
  state : State
  nesting : Nat

namespace Tally

variable (t : Tally)

def enterScope : Tally := { t with state := { t.state with scopes := [] :: t.state.scopes } }

def leaveScope : Tally := { t with state := { t.state with scopes := t.state.scopes.drop 1 } }

def enterLoop : Tally := { t with state := { t.state with loopDepth := t.state.loopDepth + 1 } }

def leaveLoop : Tally := { t with state := { t.state with loopDepth := t.state.loopDepth - 1 } }

def enterOperand : Tally := { t with nesting := t.nesting + 1 }

def leaveOperand : Tally := { t with nesting := t.nesting - 1 }

end Tally

/-- An end with something else for its state. -/
def through {σ τ α : Type} (f : σ → τ) :
    EStateM.Result Diagnostic σ α → EStateM.Result Diagnostic τ α
  | .ok a s => .ok a (f s)
  | .error d s => .error d (f s)

/-- A diagnostic as a result. -/
def attempted {σ α : Type} :
    EStateM.Result Diagnostic σ α → EStateM.Result Diagnostic σ (Except Diagnostic α)
  | .ok a s => .ok (.ok a) s
  | .error d s => .ok (.error d) s

/-- No local of this name is in the innermost scope. -/
def Undeclared (name : String) (scopes : List Scope) : Prop :=
  ∀ scope outer, scopes = scope :: outer → scope.lookup name = none

/-- The runs of a part that counts, where `part` is given how it reads operands. Only a part that
`declares` puts locals into the scope it stands in. -/
inductive Runs (source : Source) : Bool → {α : Type} → (part : Parse Typed → Parse α) → Tally →
    EStateM.Result Diagnostic Tally α → Prop
  /-- What moves among tokens, puts nodes together, puts diagnostics down, or fails. -/
  | own {declares : Bool} {α : Type} {x : Parse α} (quiet : Quiet x) (t : Tally) :
      Runs source declares (fun _ => x) t (through (⟨·, t.nesting⟩) (x t.state))
  | declare {name : String} {kind : Kind} {writable : Bool} {t : Tally}
      (fresh : Undeclared name t.state.scopes) :
      Runs source true (fun _ => declareLocal name kind writable) t
        (.ok t.state.frameSize { t with state := t.state.declaring name kind writable })
  | refused {declares : Bool} {t : Tally} (full : source.limits.nesting ≤ t.nesting) :
      Runs source declares (fun operand => operand) t
        (through (⟨·, t.nesting⟩) (tooDeep source t.state))
  | operand {declares : Bool} {t : Tally} {r : EStateM.Result Diagnostic Tally Typed}
      (room : t.nesting < source.limits.nesting)
      (inner : Runs source false (prefixed source) t.enterOperand r) :
      Runs source declares (fun operand => operand) t (through Tally.leaveOperand r)
  | next {declares : Bool} {α β : Type} {part : Parse Typed → Parse β}
      {rest : β → Parse Typed → Parse α} {t t' : Tally} {b : β}
      {r : EStateM.Result Diagnostic Tally α} (first : Runs source declares part t (.ok b t'))
      (second : Runs source declares (rest b) t' r) :
      Runs source declares (fun operand => part operand >>= fun b => rest b operand) t r
  | stopped {declares : Bool} {α β : Type} {part : Parse Typed → Parse β}
      {rest : β → Parse Typed → Parse α} {t t' : Tally} {d : Diagnostic}
      (first : Runs source declares part t (.error d t')) :
      Runs source declares (fun operand => part operand >>= fun b => rest b operand) t
        (.error d t')
  | scope {declares : Bool} {α : Type} {part : Parse Typed → Parse α} {t : Tally}
      {r : EStateM.Result Diagnostic Tally α} (inner : Runs source true part t.enterScope r) :
      Runs source declares (fun operand => inScope (part operand)) t (through Tally.leaveScope r)
  | loop {declares : Bool} {α : Type} {part : Parse Typed → Parse α} {t : Tally}
      {r : EStateM.Result Diagnostic Tally α} (inner : Runs source declares part t.enterLoop r) :
      Runs source declares (fun operand => inLoop (part operand)) t (through Tally.leaveLoop r)
  | attempt {declares : Bool} {α : Type} {part : Parse Typed → Parse α} {t : Tally}
      {r : EStateM.Result Diagnostic Tally α} (inner : Runs source declares part t r) :
      Runs source declares (fun operand => attempt (part operand)) t (attempted r)

section

variable {σ τ υ α : Type}

@[simp] theorem lastState_through (f : σ → τ) (r : EStateM.Result Diagnostic σ α) :
    lastState (through f r) = f (lastState r) := by
  cases r <;> rfl

@[simp] theorem lastState_attempted (r : EStateM.Result Diagnostic σ α) :
    lastState (attempted r) = lastState r := by
  cases r <;> rfl

@[simp] theorem through_through (f : σ → τ) (g : τ → υ) (r : EStateM.Result Diagnostic σ α) :
    through g (through f r) = through (g ∘ f) r := by
  cases r <;> rfl

@[simp] theorem through_id (r : EStateM.Result Diagnostic σ α) : through (fun s => s) r = r := by
  cases r <;> rfl

theorem through_attempted (f : σ → τ) (r : EStateM.Result Diagnostic σ α) :
    through f (attempted r) = attempted (through f r) := by
  cases r <;> rfl

end

theorem attempt_eq {α : Type} (x : Parse α) (s : State) : attempt x s = attempted (x s) := by
  unfold attempt
  cases x s <;> rfl

/-! ### Balance -/

/-- A scope with more names, none of which it had before. -/
def Gained (scope scope' : Scope) : Prop :=
  ∃ gained : Scope, scope' = gained ++ scope ∧ ∀ e ∈ gained, scope.lookup e.1 = none

/-- The same scopes, but that the innermost may have gained names. -/
inductive Widened : List Scope → List Scope → Prop
  | nil : Widened [] []
  | innermost {scope scope' : Scope} (outer : List Scope) (gained : Gained scope scope') :
      Widened (scope :: outer) (scope' :: outer)

/-- As many scopes, loops and operands around one state as around the other. Only a part that
`declares` makes a difference to the scopes. -/
structure Balanced (declares : Bool) (t t' : Tally) : Prop where
  scopes : Widened t.state.scopes t'.state.scopes
  still : declares = false → t'.state.scopes = t.state.scopes
  loopDepth : t'.state.loopDepth = t.state.loopDepth
  nesting : t'.nesting = t.nesting
  frameSize : t.state.frameSize ≤ t'.state.frameSize

namespace Gained

variable {scope scope' scope'' : Scope}

theorem refl (scope : Scope) : Gained scope scope := ⟨[], rfl, by simp⟩

theorem trans (first : Gained scope scope') (second : Gained scope' scope'') :
    Gained scope scope'' := by
  obtain ⟨more, rfl, fresh⟩ := first
  obtain ⟨later, rfl, fresh'⟩ := second
  refine ⟨later ++ more, (List.append_assoc _ _ _).symm, fun e inside => ?_⟩
  rcases List.mem_append.mp inside with inLater | inMore
  · have none := fresh' e inLater
    rw [List.lookup_append, Option.or_eq_none_iff] at none
    exact none.2
  · exact fresh e inMore

end Gained

namespace Widened

variable {scopes scopes' scopes'' : List Scope}

theorem refl (scopes : List Scope) : Widened scopes scopes := by
  cases scopes with
  | nil => exact .nil
  | cons scope outer => exact .innermost outer (.refl scope)

theorem trans (first : Widened scopes scopes') (second : Widened scopes' scopes'') :
    Widened scopes scopes'' := by
  cases first with
  | nil => exact second
  | innermost outer gained =>
      cases second with
      | innermost outer gained' => exact .innermost outer (gained.trans gained')

theorem drop_one (widened : Widened scopes scopes') : scopes'.drop 1 = scopes.drop 1 := by
  cases widened <;> rfl

end Widened

theorem widened_declaring {s : State} {name : String} (fresh : Undeclared name s.scopes)
    (kind : Kind) (writable : Bool) : Widened s.scopes (s.declaring name kind writable).scopes := by
  unfold State.declaring
  cases scopes : s.scopes with
  | nil => exact .nil
  | cons scope outer =>
      have absent : scope.lookup name = none := fresh scope outer scopes
      exact .innermost outer ⟨[_], rfl, by simpa using absent⟩

namespace Balanced

variable {declares : Bool} {t t' t'' : Tally}

theorem trans (first : Balanced declares t t') (second : Balanced declares t' t'') :
    Balanced declares t t'' where
  scopes := first.scopes.trans second.scopes
  still := fun none => (second.still none).trans (first.still none)
  loopDepth := second.loopDepth.trans first.loopDepth
  nesting := second.nesting.trans first.nesting
  frameSize := Nat.le_trans first.frameSize second.frameSize

theorem of_unmoved {s s' : State} (unmoved : Unmoved s s') (nesting : Nat) :
    Balanced declares ⟨s, nesting⟩ ⟨s', nesting⟩ where
  scopes := unmoved.scopes ▸ .refl _
  still := fun _ => unmoved.scopes
  loopDepth := unmoved.loopDepth
  nesting := rfl
  frameSize := Nat.le_of_eq unmoved.frameSize.symm

theorem leaveOperand (inner : Balanced false t.enterOperand t') :
    Balanced declares t t'.leaveOperand where
  scopes := inner.scopes
  still := fun _ => inner.still rfl
  loopDepth := inner.loopDepth
  nesting := by simp [Tally.leaveOperand, inner.nesting, Tally.enterOperand]
  frameSize := inner.frameSize

theorem leaveScope (inner : Balanced true t.enterScope t') : Balanced declares t t'.leaveScope := by
  have left : t'.leaveScope.state.scopes = t.state.scopes := inner.scopes.drop_one
  exact {
    scopes := left ▸ .refl _
    still := fun _ => left
    loopDepth := inner.loopDepth
    nesting := inner.nesting
    frameSize := inner.frameSize }

theorem leaveLoop (inner : Balanced declares t.enterLoop t') :
    Balanced declares t t'.leaveLoop where
  scopes := inner.scopes
  still := inner.still
  loopDepth := by simp [Tally.leaveLoop, inner.loopDepth, Tally.enterLoop]
  nesting := inner.nesting
  frameSize := inner.frameSize

end Balanced

theorem Quiet.balanced {α : Type} {x : Parse α} (quiet : Quiet x) (declares : Bool) (t : Tally) :
    Balanced declares t (lastState (through (⟨·, t.nesting⟩) (x t.state))) := by
  have same : Same t.state (lastState (x t.state)) :=
    ends_lastState.mp (quiet t.state t.state (Same.refl _))
  rw [lastState_through]
  exact .of_unmoved same.toUnmoved t.nesting

variable {source : Source} {declares : Bool} {α : Type} {part : Parse Typed → Parse α} {t : Tally}
  {r : EStateM.Result Diagnostic Tally α}

theorem quiet_tooDeep : Quiet (tooDeep source) :=
  (quiet_position source).bind fun _ => quiet_fail source _ _

/-- However a run ends, it leaves what it has entered. -/
theorem Runs.balanced (run : Runs source declares part t r) :
    Balanced declares t (lastState r) := by
  induction run with
  | own quiet t => exact quiet.balanced _ t
  | declare fresh =>
      exact {
        scopes := widened_declaring fresh _ _
        still := nofun
        loopDepth := rfl
        nesting := rfl
        frameSize := Nat.le_succ _ }
  | refused => exact quiet_tooDeep.balanced _ _
  | operand _ _ ih => simpa using ih.leaveOperand
  | next _ _ first second => exact first.trans second
  | stopped _ ih => exact ih
  | scope _ ih => simpa using ih.leaveScope
  | loop _ ih => simpa using ih.leaveLoop
  | attempt _ ih => simpa using ih

/-! ### Levels -/

/-- How many levels of nesting are left. -/
def Tally.levels (source : Source) (t : Tally) : Nat := source.limits.nesting - t.nesting

theorem levels_room (room : t.nesting < source.limits.nesting) :
    t.levels source = t.enterOperand.levels source + 1 := by
  simp only [Tally.levels, Tally.enterOperand]
  omega

theorem levels_full (full : source.limits.nesting ≤ t.nesting) : t.levels source = 0 :=
  Nat.sub_eq_zero_of_le full

/-- A run ends as the part does that is given the levels that are left. -/
theorem Runs.reads (run : Runs source declares part t r) :
    part (Parse.operand source (t.levels source)) t.state = through Tally.state r := by
  induction run with
  | own => simp [Function.comp_def]
  | declare => rfl
  | refused full =>
      rw [levels_full full]
      simp only [through_through, Function.comp_def, through_id]
      rfl
  | operand room _ ih =>
      rw [levels_room room, through_through]
      exact ih
  | next first _ ih ih' =>
      -- The rest is given the same levels: the count is back behind the first part.
      have same := first.balanced.nesting
      rw [lastState_ok] at same
      rw [Tally.levels, same] at ih'
      exact (bind_completed ih).trans ih'
  | stopped _ ih => exact bind_stopped ih
  | @scope _ _ _ _ r _ ih =>
      refine (inScope_eq _ _).trans ((congrArg (leaving _) ih).trans ?_)
      cases r <;> rfl
  | @loop _ _ _ _ r _ ih =>
      refine (inLoop_eq _ _).trans ((congrArg (leaving _) ih).trans ?_)
      cases r <;> rfl
  | attempt _ ih =>
      refine (attempt_eq _ _).trans ((congrArg attempted ih).trans ?_)
      exact (through_attempted _ _).symm

theorem through_state {nesting : Nat} (same : (lastState r).nesting = nesting) :
    through (⟨·, nesting⟩) (through Tally.state r) = r := by
  subst same
  cases r <;> rfl

/-- So all runs of a part from one place end alike. -/
theorem Runs.unique {declares' : Bool} {r' : EStateM.Result Diagnostic Tally α}
    (run : Runs source declares part t r) (run' : Runs source declares' part t r') : r' = r := by
  rw [← through_state run.balanced.nesting, ← through_state run'.balanced.nesting, ← run.reads,
    ← run'.reads]

end MathScript.Parse
