import MathScript.Proofs.Marks

/-!
The parts of a statement, one after another. Each that stands behind a token goes on from where it
is, whatever it reads, and blames only positions that it was given or has passed; what comes first
in a statement begins. So none of them runs out of rounds.
-/

namespace MathScript.Parse

variable (source : Source) {marks : List Nat} {rounds : Nat}

/-! ### Nodes -/

section

variable {place : Nat}

theorem refuses_requireScalar (node : Typed) (what : String) :
    Refuses source place (requireScalar source node place what) :=
  refuses_ite (refuses_pure _) (refuses_fail rfl)

theorem refuses_target (node : Typed) : Refuses source place (target source node place) := by
  have aims : Refuses source place (aim source node place) := by
    unfold aim
    split
    · exact refuses_fail rfl
    · exact refuses_pure _
    · exact refuses_pure _
    · exact refuses_ite (refuses_pure _) (refuses_fail rfl)
    · exact refuses_fail rfl
  exact aims.bind fun _ => refuses_ite (refuses_pure _) (refuses_fail rfl)

theorem refuses_assignment (left : Typed) (op : AssignOp) (value : Typed) :
    Refuses source place (assignment source left op value place) :=
  (refuses_target source left).bind fun _ =>
    refuses_ite (refuses_pure _) (refuses_fail rfl)

theorem refuses_exchange (left right : Typed) :
    Refuses source place (exchange source left right place) :=
  (refuses_target source left).bind fun _ => (refuses_target source right).bind fun _ =>
    refuses_ite (refuses_pure _) (refuses_fail rfl)

theorem refuses_conditional (test : Tree) (yes : Typed) (no : Option Typed) :
    Refuses source place (conditional source test yes no place) := by
  cases no with
  | none => exact refuses_pure _
  | some n => exact refuses_ite (refuses_pure _) (refuses_fail rfl)

theorem refuses_combine (op : Op) (left right : Typed) :
    Refuses source place (combine source op left right place) := by
  unfold combine
  split
  · exact refuses_pure _
  · exact refuses_fail rfl

theorem refuses_scalarArgs (name : String) (number : Nat) (args : List Typed) :
    Refuses source place (scalarArgs source name place number args) := by
  induction args generalizing number with
  | nil => exact refuses_pure _
  | cons a args ih =>
      exact refuses_ite ((ih _).bind fun _ => refuses_pure _) (refuses_fail rfl)

theorem refuses_checkArity (name : String) (expected found : Nat) :
    Refuses source place (checkArity source name expected found place) :=
  refuses_ite (refuses_pure _) (refuses_fail rfl)

theorem refuses_fixedArgs (name : String) (arity : Nat) (args : List Typed) :
    Refuses source place (fixedArgs source name arity args place) :=
  (refuses_checkArity source name arity _).bind fun _ => refuses_scalarArgs source name 1 args

theorem refuses_call (name : String) (callable : Callable) (args : List Typed) :
    Refuses source place (call source name callable args place) := by
  cases callable with
  | scalar native arity =>
      exact (refuses_fixedArgs source name arity args).bind fun _ => refuses_pure _
  | vararg native => exact (refuses_scalarArgs source name 1 args).bind fun _ => refuses_pure _
  | generic native signature =>
      unfold call
      dsimp only
      split
      · exact refuses_fail rfl
      · exact refuses_pure _
  | composed definition arity =>
      exact (refuses_fixedArgs source name arity args).bind fun _ => refuses_pure _

theorem refuses_builtin (name : String) (args : List Typed) :
    Refuses source place (builtin source name args place) := by
  unfold builtin
  split
  · refine (refuses_checkArity source name 1 _).bind fun _ => ?_
    split
    · exact refuses_ite (refuses_fail rfl) (refuses_pure _)
    · exact refuses_fail rfl
  · split
    · exact (refuses_fixedArgs source name 2 args).bind fun _ => refuses_pure _
    · split
      · exact (refuses_fixedArgs source name 3 args).bind fun _ => refuses_pure _
      · split
        · split
          · exact refuses_fail rfl
          · exact refuses_pure _
          · exact (refuses_scalarArgs source name 1 _).bind fun _ => refuses_pure _
        · exact refuses_fail rfl

theorem refuses_vectorLength (size : Tree) :
    Refuses source place (vectorLength source size place) := by
  unfold vectorLength
  split
  · exact refuses_ite (refuses_fail rfl)
      (refuses_ite (refuses_pure _) (refuses_fail rfl))
  · exact refuses_fail rfl

theorem refuses_checkCount (count : Nat) (name : String) (length : Option Nat) :
    Refuses source place (checkCount source count name length place) := by
  unfold checkCount
  split
  · exact refuses_ite (refuses_fail rfl) (refuses_pure _)
  · exact refuses_pure _

theorem refuses_addCase (c : Cases) (test : Option Tree) (body : Typed) :
    Refuses source place (addCase source c test body place) := by
  unfold addCase
  split
  · exact refuses_ite (refuses_pure _) (refuses_fail rfl)
  · exact refuses_pure _

end

/-! ### Operators -/

theorem operatorAhead_eq (least : Nat) (s : State) :
    operatorAhead source least s = .ok
      (match (s.look source 1).ahead.head?.map Prod.snd with
        | some (.sym (.op op)) => if least ≤ op.precedence then some op else none
        | _ => none) (s.look source 1) := by
  unfold operatorAhead
  simp only [bind, EStateM.bind, peek_eq]
  rcases (s.look source 1).ahead.head?.map Prod.snd with _ | (_ | _ | _ | sym)
  case some.sym => cases sym <;> rfl
  all_goals rfl

section

variable {operand : Parse Typed} {deep : Bool}
variable (operands : Begins source deep source.allowance operand)

include operands

theorem binary_begins (fuel : Nat) :
    (∀ least, Begins source deep fuel (binary source operand fuel least)) ∧
      ∀ marks least left, Goes source marks fuel (climb source operand fuel least left) := by
  induction fuel with
  | zero =>
      constructor
      · intro least
        rw [binary]
        exact begins_stalled
      · intro marks least left
        rw [climb]
        exact goes_stalled
  | succ fuel ih =>
      obtain ⟨binaries, climbs⟩ := ih
      constructor
      · intro least
        rw [binary]
        exact operands.within.bind fun left => climbs [] least left
      · intro marks least left given b s midway within
        rw [climb]
        have looked := went_look source s
        apply ends_bind
        rw [Ends, operatorAhead_eq]
        dsimp only
        split
        · exact ends_pure ⟨false, looked⟩
        · next op found =>
            -- The operator is ahead, so taking it leaves less.
            obtain ⟨⟨place, t⟩, ahead, next⟩ : ∃ first ahead,
                (s.look source 1).ahead = first :: ahead := by
              cases ahead : (s.look source 1).ahead with
              | nil => simp [ahead] at found
              | cons first rest => exact ⟨first, rest, rfl⟩
            have taken : Went source (s.look source 1) true ((s.look source 1).behind t ahead) :=
              (Stepped.of_act (.take next)).went
            have less := (looked.trans taken).budget midway.readyHere
            simp only [Bool.false_or, Bool.toNat_true] at less
            apply ends_bind
            rw [Ends, position_eq, State.look_look]
            apply ends_bind
            rw [Ends, advance_some source (s.look_look.symm ▸ next), State.look_look]
            have rest : Goes source ((s.look source 1).front source :: marks) fuel (do
                let right ← binary source operand fuel op.rightPrecedence
                climb source operand fuel least
                  (← combine source op left right ((s.look source 1).front source))) :=
              (binaries _).goes.bind fun right =>
                ((refuses_combine source op left right).goes List.mem_cons_self).bind fun n =>
                  climbs _ least n
            exact (looked.trans taken).ends
              (rest given b _ ((midway.on looked).here.on taken) (by omega))

theorem chain_begins (least : Nat) :
    Begins source deep source.allowance (chain source operand least) :=
  (binary_begins source operands source.allowance).1 least

theorem ternary_begins {again : Parse Typed} (agains : ∀ marks, Goes source marks rounds again) :
    Begins source deep (rounds + 1) (ternary source operand again) :=
  (chain_begins source operands 1).within.placed fun here condition =>
    (goes_eat _).bind fun _ => goes_ite
      (((refuses_requireScalar source condition _).goes (by simp)).bind fun _ =>
        (agains _).bind fun _ => (goes_expect _ _).bind fun _ => (agains _).bind fun _ =>
          (refuses_conditional source _ _ _).goes (by simp))
      (goes_pure _)

theorem expressions_begins (fuel : Nat) :
    Begins source deep fuel (expressions source operand fuel) := by
  induction fuel with
  | zero => exact begins_stalled
  | succ fuel ih =>
      have agains : ∀ marks, Goes source marks fuel (expressions source operand fuel) :=
        fun marks => ih.goes
      have ternaries := ternary_begins source operands agains
      apply ternaries.placed
      intro here left
      apply goes_peek.bind
      intro found
      split
      · exact goes_advance.bind fun _ => (agains _).bind fun _ =>
          (refuses_assignment source left _ _).goes (by simp)
      · exact goes_advance.bind fun _ => (ternaries.goes.le (Nat.le_succ _)).bind fun _ =>
          (refuses_exchange source left _).goes (by simp)
      · exact goes_pure _

theorem expression_begins : Begins source deep source.allowance (expression source operand) :=
  expressions_begins source operands source.allowance

end

/-! ### Lists and declarations -/

theorem goes_commaList {α : Type} {item : Parse α} (items : Goes source marks source.allowance item)
    (close : Sym) (context : String) (fuel : Nat) (found : List α) :
    Goes source marks fuel (commaList source item close context fuel found) := by
  induction fuel generalizing found with
  | zero => exact goes_stalled
  | succ fuel ih =>
      apply items.within.bind
      intro a
      exact goes_taking (ends_eaten source .comma) (ih _)
        ((goes_expect close context).bind fun _ => goes_pure _)

section

variable {expression : Parse Typed} {deep : Bool}
variable (reads : Begins source deep source.allowance expression)

include reads

theorem goes_scalarExpression (what : String) :
    Goes source marks rounds (scalarExpression source expression what) :=
  goes_position fun _ => reads.within.goes.bind fun node =>
    (refuses_requireScalar source node what).goes List.mem_cons_self

theorem goes_scalarList (close : Sym) :
    Goes source marks rounds (scalarList source expression close) :=
  (goes_eat close).bind fun _ => goes_ite (goes_pure _)
    (goes_commaList source (goes_scalarExpression source reads _) close _ _ _).within

theorem goes_declaredLength : Goes source marks rounds (declaredLength source expression) :=
  (goes_eat _).bind fun _ => goes_ite (goes_pure _) <| goes_position fun _ =>
    (goes_scalarExpression source reads _).bind fun size => (goes_expect _ _).bind fun _ =>
      ((refuses_vectorLength source size).goes List.mem_cons_self).bind fun _ => goes_pure _

theorem goes_vectorFill (name : String) (length : Option Nat) :
    Goes source marks rounds (vectorFill source expression name length) := by
  refine (goes_eat _).bind fun _ => goes_ite (goes_position fun here => ?_) (goes_pure _)
  refine (goes_eat _).bind fun _ => goes_ite ?_ ((goes_eat _).bind fun _ => goes_ite ?_ ?_)
  · exact (goes_scalarList source reads _).bind fun items =>
      ((refuses_checkCount source _ name length).goes List.mem_cons_self).bind fun _ => goes_pure _
  · exact (goes_scalarExpression source reads _).bind fun _ =>
      (goes_expect _ _).bind fun _ => goes_pure _
  · exact reads.within.goes.bind fun value =>
      goes_ite (goes_pure _) (goes_fail List.mem_cons_self rfl)

variable {place : Nat}

theorem goes_vectorDeclaration (name : String) (inside : place ∈ marks) :
    Goes source marks rounds (vectorDeclaration source expression name place) := by
  refine (goes_declaredLength source reads).bind fun length =>
    (goes_vectorFill source reads name length).bind fun filled => ?_
  obtain ⟨fill, parts⟩ := filled
  dsimp only
  split
  · exact goes_pure _
  · exact goes_pure _
  · exact goes_fail inside rfl

theorem goes_initialValue (name : String) (constant : Bool) (inside : place ∈ marks) :
    Goes source marks rounds (initialValue source expression name constant place) := by
  refine (goes_eat _).bind fun _ => goes_ite (goes_vectorDeclaration source reads name inside) <|
    (goes_eat _).bind fun _ => goes_ite (goes_position fun here => ?_) <|
      goes_ite (goes_fail inside rfl) (goes_pure _)
  refine reads.within.goes.bind fun value => ?_
  cases value.kind with
  | scalar => exact goes_pure _
  | string => exact goes_pure _
  | vector => exact goes_fail List.mem_cons_self rfl

/-- Behind `var`. -/
theorem goes_declared (constant : Bool) : Goes source marks rounds (do
    let here ← position source
    match ← advance source with
    | some (.word name) =>
        if !isIdentifier name || isReserved name then fail source here (.unusableName name)
        else if ← declaredHere name then fail source here (.redeclared name)
        else
          let (shape, parts) ← initialValue source expression name constant here
          let slot ← declareLocal name shape.kind !constant
          return scalarNode (.declare slot shape parts)
    | _ => fail source here .missingVariableName) := by
  refine goes_position fun here => goes_advance.bind fun found => ?_
  split
  · next name =>
      refine goes_ite (goes_fail List.mem_cons_self rfl) <|
        (goes_declaredHere name).bind fun _ =>
          goes_ite (goes_fail List.mem_cons_self rfl) ?_
      exact (goes_initialValue source reads name constant List.mem_cons_self).bind fun _ =>
        (goes_declareLocal _ _ _).bind fun _ => goes_pure _
  · exact goes_fail List.mem_cons_self rfl

theorem declaration_begins (constant : Bool) :
    Begins source deep source.allowance (declaration source expression constant) := by
  intro given s text ready within
  apply ends_advance_look source
  cases ahead : (s.look source 1).ahead with
  | cons next rest => exact (goes_declared source reads constant).advanced text ready ahead
  | nil =>
      -- Nothing is ahead, and nothing comes.
      have rest := s.poised_look ahead
      have poised : State.Poised { s.look source 1 with afterBrace := false } := fun _ => rest
      have again : State.look source _ 1 = _ := State.look_poised poised
      apply ends_bind
      rw [Ends, advance_none source (s.look_look.symm ▸ ahead), State.look_look]
      apply ends_bind
      rw [Ends, position_eq, again]
      apply ends_bind
      rw [Ends, advance_none source (again.symm ▸ ahead), again]
      exact ends_throw (.declined rfl (.turn rfl rfl rfl) (.inl ahead))

theorem statement_begins : Begins source deep source.allowance (statement source expression) := by
  intro given s text ready within
  apply ends_bind
  rw [Ends, checkWord_eq]
  dsimp only
  split
  · exact (declaration_begins source reads false).looked text ready within
  · refine ends_bind ((ends_eatenWord source "const" _).mono (fun taken m ended => ?_)
      fun _ _ => False.elim)
    rw [State.look_look] at ended
    cases taken with
    | true =>
        rw [if_pos rfl] at ended
        obtain ⟨place, ahead, next, rfl⟩ := ended
        have went : Went source s true _ := (Stepped.taking next).went
        have rest : Goes source [] source.allowance (do
            if ← checkWord source "var" then declaration source expression true
            else fail source (← position source) .constWithoutVar) :=
          (goes_checkWord "var").bind fun _ =>
            goes_ite (declaration_begins source reads true).goes <|
              goes_position fun _ => goes_fail List.mem_cons_self rfl
        exact rest.begun ⟨text, ready, went, by simp⟩ ((went.ready ready).budget_lt text)
    | false =>
        rw [if_neg Bool.false_ne_true] at ended
        obtain ⟨rfl, -⟩ := ended
        exact reads.looked text ready within

end

end MathScript.Parse
