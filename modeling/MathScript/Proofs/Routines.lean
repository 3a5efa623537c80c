import MathScript.Proofs.Balance
import MathScript.Proofs.Parts

/-!
The parsing functions, each of which leaves what it has entered. From every state, with however many
operands open, each of them has a run that counts, and one only; it ends as the function itself, and
leaves as many scopes, loops and operands open as there were. Statements and declarations may put
names into the scope they stand in, and so may the parts of a `for`; all others leave all scopes as
they were.
-/

namespace MathScript.Parse

/-- The parsing functions, with what they are given. -/
inductive Routine where
  | statements (stop : Stop) (fuel : Nat) (items : List Typed)
  | block (stop : Stop)
  | statement
  | declaration (constant : Bool)
  | vectorDeclaration (name : String) (position : Nat)
  | expression
  | scalarExpression (what : String)
  | scalarList (close : Sym)
  | ternary
  | binary (fuel least : Nat)
  | operand
  | prefixed
  | primary
  | word (name : String) (position : Nat)
  | brace (position : Nat)
  | ifExpression (position : Nat)
  | switch
  | loopBody
  | forLoop
  | forParts
  | whileLoop
  | repeatLoop (position : Nat)
  | breakExpression (position : Nat)
  | continueExpression (position : Nat)
  | returnExpression
  | identifier (name : String) (position : Nat)
  | access (b : Binding) (position : Nat)
  | arguments
  | call (name : String) (callable : Callable) (position : Nat)

namespace Routine

def Result : Routine → Type
  | statements .. | block _ => List Typed
  | vectorDeclaration .. => Shape × List Tree
  | scalarExpression _ | loopBody => Tree
  | scalarList _ => List Tree
  | arguments => Option (List Typed)
  | _ => Typed

/-- Which of them put names into the scope they stand in. -/
def declares : Routine → Bool
  | statements .. | statement | declaration _ | forParts => true
  | _ => false

/-- What each of them is, given how it reads operands. -/
def read (source : Source) (routine : Routine) (inner : Parse Typed) : Parse routine.Result :=
  let within := Parse.expression source inner
  match routine with
  | statements stop fuel items => Parse.statements source within stop fuel items
  | block stop => Parse.block source within stop
  | statement => Parse.statement source within
  | declaration constant => Parse.declaration source within constant
  | vectorDeclaration name position => Parse.vectorDeclaration source within name position
  | expression => within
  | scalarExpression what => Parse.scalarExpression source within what
  | scalarList close => Parse.scalarList source within close
  | ternary => Parse.ternary source inner within
  | binary fuel least => Parse.binary source inner fuel least
  | operand => inner
  | prefixed => Parse.prefixed source inner
  | primary => Parse.primary source within
  | word name position => Parse.word source within name position
  | brace position => Parse.brace source within position
  | ifExpression position => Parse.ifExpression source within position
  | switch => Parse.switch source within
  | loopBody => Parse.loopBody within
  | forLoop => Parse.forLoop source within
  | forParts => Parse.forParts source within
  | whileLoop => Parse.whileLoop source within
  | repeatLoop position => Parse.repeatLoop source within position
  | breakExpression position => Parse.breakExpression source within position
  | continueExpression position => Parse.continueExpression source position
  | returnExpression => Parse.returnExpression source within
  | identifier name position => Parse.identifier source within name position
  | access b position => Parse.access source within b position
  | arguments => arguments? source within
  | call name callable position => symbolNode source within name (.function callable) position

end Routine

variable {source : Source} {declares : Bool} {nesting : Nat} {α β : Type}

/-- From every state there is a run, with so many operands open. -/
def Runnable (source : Source) (declares : Bool) (nesting : Nat)
    (part : Parse Typed → Parse α) : Prop :=
  ∀ s, ∃ r, Runs source declares part ⟨s, nesting⟩ r

theorem Refuses.quiet {place : Nat} {x : Parse α} (refuses : Refuses source place x) : Quiet x := by
  refine quiet_of_same fun s => (refuses s).mono ?_ ?_
  · rintro a _ rfl
    exact .refl _
  · rintro d _ ⟨rfl, -⟩
    exact .refl _

section

variable {part other : Parse Typed → Parse α} {rest : β → Parse Typed → Parse α}

theorem Quiet.runnable {x : Parse α} (quiet : Quiet x) :
    Runnable source declares nesting fun _ => x :=
  fun s => ⟨_, .own quiet ⟨s, nesting⟩⟩

theorem runnable_pure (a : α) : Runnable source declares nesting fun _ => pure a :=
  (quiet_pure a).runnable

theorem runnable_fail (position : Nat) (cause : Cause) :
    Runnable source declares nesting fun _ => (fail source position cause : Parse α) :=
  (quiet_fail source position cause).runnable

theorem runnable_stalled : Runnable source declares nesting fun _ => (stalled source : Parse α) :=
  (quiet_stalled source).runnable

theorem Runnable.bind {part : Parse Typed → Parse β}
    (first : Runnable source declares nesting part)
    (second : ∀ b, Runnable source declares nesting (rest b)) :
    Runnable source declares nesting fun operand => part operand >>= fun b => rest b operand := by
  intro s
  obtain ⟨r, run⟩ := first s
  cases r with
  | error d t => exact ⟨_, .stopped run⟩
  | ok b t =>
      -- What comes second is inside of as many operands as what came first.
      obtain rfl : t.nesting = nesting := run.balanced.nesting
      obtain ⟨r, run'⟩ := second b t.state
      exact ⟨r, .next run run'⟩

theorem Quiet.leads {x : Parse β} (quiet : Quiet x)
    (second : ∀ b, Runnable source declares nesting (rest b)) :
    Runnable source declares nesting fun operand => x >>= fun b => rest b operand :=
  Runnable.bind quiet.runnable second

theorem runnable_ite {c : Prop} [Decidable c] (yes : Runnable source declares nesting part)
    (no : Runnable source declares nesting other) :
    Runnable source declares nesting fun operand => if c then part operand else other operand := by
  split
  · exact yes
  · exact no

theorem Runnable.inScope (inner : Runnable source true nesting part) :
    Runnable source declares nesting fun operand => inScope (part operand) := by
  intro s
  obtain ⟨r, run⟩ := inner { s with scopes := [] :: s.scopes }
  exact ⟨_, .scope run⟩

theorem Runnable.inLoop (inner : Runnable source declares nesting part) :
    Runnable source declares nesting fun operand => inLoop (part operand) := by
  intro s
  obtain ⟨r, run⟩ := inner { s with loopDepth := s.loopDepth + 1 }
  exact ⟨_, .loop run⟩

theorem Runnable.attempt (inner : Runnable source declares nesting part) :
    Runnable source declares nesting fun operand => attempt (part operand) := by
  intro s
  obtain ⟨r, run⟩ := inner s
  exact ⟨_, .attempt run⟩

end

/-! ### Operators -/

section

variable (operands : Runnable source declares nesting fun operand => operand)

include operands

theorem runnable_binary (fuel : Nat) :
    (∀ least, Runnable source declares nesting fun operand => binary source operand fuel least) ∧
      ∀ least left, Runnable source declares nesting fun operand =>
        climb source operand fuel least left := by
  induction fuel with
  | zero =>
      simp only [binary, climb]
      exact ⟨fun _ => runnable_stalled, fun _ _ => runnable_stalled⟩
  | succ fuel ih =>
      obtain ⟨binaries, climbs⟩ := ih
      simp only [binary, climb]
      refine ⟨fun least => operands.bind fun left => climbs least left, fun least left => ?_⟩
      refine (quiet_operatorAhead source least).leads fun found => ?_
      cases found with
      | none => exact runnable_pure left
      | some op =>
          exact (quiet_position source).leads fun here => (quiet_advance source).leads fun _ =>
            (binaries op.rightPrecedence).bind fun right =>
              (refuses_combine source op left right).quiet.leads fun node => climbs least node

theorem runnable_chain (least : Nat) :
    Runnable source declares nesting fun operand => chain source operand least :=
  (runnable_binary operands source.allowance).1 least

theorem runnable_ternary {again : Parse Typed → Parse Typed}
    (agains : Runnable source declares nesting again) :
    Runnable source declares nesting fun operand => ternary source operand (again operand) :=
  (quiet_position source).leads fun _ => (runnable_chain operands 1).bind fun condition =>
    (quiet_eat source .question).leads fun _ => runnable_ite
      ((refuses_requireScalar source condition _).quiet.leads fun test => agains.bind fun yes =>
        (quiet_expect source .colon _).leads fun _ => agains.bind fun no =>
          (refuses_conditional source test yes (some no)).quiet.runnable)
      (runnable_pure condition)

theorem runnable_expressions (fuel : Nat) :
    Runnable source declares nesting fun operand => expressions source operand fuel := by
  induction fuel with
  | zero => exact runnable_stalled
  | succ fuel ih =>
      simp only [expressions]
      refine (quiet_position source).leads fun _ => (runnable_ternary operands ih).bind
        fun left => (quiet_peek source).leads fun found => ?_
      split
      · exact (quiet_advance source).leads fun _ => ih.bind fun value =>
          (refuses_assignment source left _ value).quiet.runnable
      · exact (quiet_advance source).leads fun _ => (runnable_ternary operands ih).bind
          fun right => (refuses_exchange source left right).quiet.runnable
      · exact runnable_pure left

theorem runnable_expression : Runnable source declares nesting (expression source) :=
  runnable_expressions operands source.allowance

end

/-! ### Lists and declarations -/

theorem runnable_commaList {item : Parse Typed → Parse α}
    (items : Runnable source declares nesting item) (close : Sym) (context : String) (fuel : Nat)
    (found : List α) :
    Runnable source declares nesting fun operand =>
      commaList source (item operand) close context fuel found := by
  induction fuel generalizing found with
  | zero => exact runnable_stalled
  | succ fuel ih =>
      exact items.bind fun a => (quiet_eat source .comma).leads fun _ => runnable_ite (ih _)
        ((quiet_expect source close context).leads fun _ => runnable_pure _)

section

variable {expression : Parse Typed → Parse Typed}
variable (reads : Runnable source declares nesting expression)

include reads

theorem runnable_scalarExpression (what : String) :
    Runnable source declares nesting fun operand =>
      scalarExpression source (expression operand) what :=
  (quiet_position source).leads fun _ => reads.bind fun node =>
    (refuses_requireScalar source node what).quiet.runnable

theorem runnable_scalarList (close : Sym) :
    Runnable source declares nesting fun operand =>
      scalarList source (expression operand) close :=
  (quiet_eat source close).leads fun _ => runnable_ite (runnable_pure [])
    (runnable_commaList (runnable_scalarExpression reads _) close _ _ _)

theorem runnable_declaredLength :
    Runnable source declares nesting fun operand => declaredLength source (expression operand) :=
  (quiet_eat source .rbracket).leads fun _ => runnable_ite (runnable_pure none) <|
    (quiet_position source).leads fun _ => (runnable_scalarExpression reads _).bind fun size =>
      (quiet_expect source .rbracket _).leads fun _ =>
        (refuses_vectorLength source size).quiet.leads fun _ => runnable_pure _

theorem runnable_vectorFill (name : String) (length : Option Nat) :
    Runnable source declares nesting fun operand =>
      vectorFill source (expression operand) name length := by
  refine (quiet_eat source _).leads fun _ => runnable_ite ?_ (runnable_pure _)
  refine (quiet_position source).leads fun here => (quiet_eat source .lbrace).leads fun _ =>
    runnable_ite ?_ ((quiet_eat source .lbracket).leads fun _ => runnable_ite ?_ ?_)
  · exact (runnable_scalarList reads .rbrace).bind fun items =>
      (refuses_checkCount source _ name length).quiet.leads fun _ => runnable_pure _
  · exact (runnable_scalarExpression reads _).bind fun _ =>
      (quiet_expect source .rbracket _).leads fun _ => runnable_pure _
  · exact reads.bind fun value => runnable_ite (runnable_pure _) (runnable_fail here _)

theorem runnable_vectorDeclaration (name : String) (position : Nat) :
    Runnable source declares nesting fun operand =>
      vectorDeclaration source (expression operand) name position := by
  refine (runnable_declaredLength reads).bind fun length =>
    (runnable_vectorFill reads name length).bind fun filled => ?_
  obtain ⟨fill, parts⟩ := filled
  dsimp only
  split
  · exact runnable_pure _
  · exact runnable_pure _
  · exact runnable_fail position _

theorem runnable_initialValue (name : String) (constant : Bool) (position : Nat) :
    Runnable source declares nesting fun operand =>
      initialValue source (expression operand) name constant position := by
  refine (quiet_eat source .lbracket).leads fun _ =>
    runnable_ite (runnable_vectorDeclaration reads name position) <|
      (quiet_eat source _).leads fun _ => runnable_ite ?_ <|
        runnable_ite (runnable_fail position _) (runnable_pure _)
  refine (quiet_position source).leads fun here => reads.bind fun value => ?_
  cases value.kind with
  | scalar => exact runnable_pure _
  | string => exact runnable_pure _
  | vector => exact runnable_fail here _

end

theorem runs_declaredHere (source : Source) (declares : Bool) (name : String) (t : Tally) :
    ∃ declared, (declared = false → Undeclared name t.state.scopes) ∧
      Runs source declares (fun _ => declaredHere name) t (.ok declared t) := by
  have run : Runs source declares (fun _ => declaredHere name) t _ :=
    .own (quiet_declaredHere name) t
  rw [declaredHere_eq] at run
  refine ⟨_, fun none scope outer scopes => ?_, run⟩
  simpa [scopes] using none

/-- A name that is not declared here is not declared by its initial value either, so that it is new
where it is put into the scope. -/
theorem runnable_declaring {name : String} {initial : Parse Typed → Parse (Shape × List Tree)}
    (values : ∀ declares, Runnable source declares nesting initial) (here : Nat)
    (writable : Bool) :
    Runnable source true nesting fun operand => do
      if ← declaredHere name then fail source here (.redeclared name)
      else
        let (shape, parts) ← initial operand
        let slot ← declareLocal name shape.kind writable
        return scalarNode (.declare slot shape parts) := by
  intro s
  obtain ⟨declared, fresh, seen⟩ := runs_declaredHere source true name ⟨s, nesting⟩
  cases declared with
  | true =>
      have failed : Runnable source true nesting fun _ =>
          (fail source here (.redeclared name) : Parse Typed) := runnable_fail here _
      obtain ⟨r, run⟩ := failed s
      exact ⟨r, .next seen run⟩
  | false =>
      obtain ⟨r, run⟩ := values true s
      cases r with
      | error d t => exact ⟨_, .next seen (.stopped run)⟩
      | ok declared t =>
          have still : t.state.scopes = s.scopes := by
            obtain ⟨r, alone⟩ := values false s
            obtain rfl := alone.unique run
            exact alone.balanced.still rfl
          have entered : Runs source true
              (fun _ => declareLocal name declared.1.kind writable) t _ :=
            .declare (still ▸ fresh rfl)
          exact ⟨_, .next seen (.next run (.next entered (.own (quiet_pure _) _)))⟩

section

variable {expression : Parse Typed → Parse Typed}
variable (reads : ∀ declares, Runnable source declares nesting expression)

include reads

theorem runnable_declaration (constant : Bool) :
    Runnable source true nesting fun operand =>
      declaration source (expression operand) constant := by
  refine (quiet_advance source).leads fun _ => (quiet_position source).leads fun here =>
    (quiet_advance source).leads fun found => ?_
  split
  · next name =>
      exact runnable_ite (runnable_fail here _) <| runnable_declaring
        (fun declares => runnable_initialValue (reads declares) name constant here) here (!constant)
  · exact runnable_fail here _

/-! ### Statements -/

theorem runnable_statement :
    Runnable source true nesting fun operand => statement source (expression operand) :=
  (quiet_checkWord source _).leads fun _ => runnable_ite (runnable_declaration reads false) <|
    (quiet_eatWord source _).leads fun _ => runnable_ite
      ((quiet_checkWord source _).leads fun _ => runnable_ite (runnable_declaration reads true) <|
        (quiet_position source).leads fun here => runnable_fail here _)
      (reads true)

/-- Behind a faulty statement the list goes on, inside of what it was inside of. -/
theorem runnable_statements (stop : Stop) (fuel : Nat) (items : List Typed) :
    Runnable source true nesting fun operand =>
      statements source (expression operand) stop fuel items := by
  induction fuel generalizing items with
  | zero => exact (quiet_record source _).leads fun _ => runnable_pure _
  | succ fuel ih =>
      refine (quiet_eatAll source _ _).leads fun _ => (quiet_atStop source stop).leads fun _ =>
        runnable_ite (runnable_pure _) <| (runnable_statement reads).attempt.bind fun result => ?_
      cases result with
      | error d => exact (quiet_recover source d).leads fun _ => ih items
      | ok item =>
          exact (quiet_separated source stop).leads fun _ => runnable_ite (ih _) <|
            (quiet_position source).leads fun here => (quiet_peek source).leads fun found =>
              (quiet_recover source _).leads fun _ => ih _

theorem runnable_block (stop : Stop) :
    Runnable source declares nesting fun operand => block source (expression operand) stop :=
  (runnable_statements reads stop source.allowance []).inScope

/-! ### Control -/

theorem runnable_brace (position : Nat) :
    Runnable source declares nesting fun operand => brace source (expression operand) position :=
  (quiet_eat source .rbrace).leads fun _ => runnable_ite (runnable_pure _) <|
    (quiet_vectorAhead source).leads fun _ => runnable_ite
      ((runnable_scalarList (reads _) .rbrace).bind fun _ => runnable_pure _)
      ((runnable_block reads .brace).bind fun _ => (quiet_eat source .rbrace).leads fun _ =>
        runnable_ite (runnable_pure _) (runnable_fail position _))

theorem runnable_otherwise :
    Runnable source declares nesting fun operand => otherwise? source (expression operand) :=
  (quiet_eatWord source _).leads fun _ => runnable_ite
    ((reads _).bind fun _ => runnable_pure _) <| (quiet_check source .semicolon).leads fun _ =>
      runnable_ite
        ((quiet_peekSecond source).leads fun _ => runnable_ite
          ((quiet_advance source).leads fun _ => (quiet_advance source).leads fun _ =>
            (reads _).bind fun _ => runnable_pure _)
          (runnable_pure none))
        (runnable_pure none)

theorem runnable_ifExpression (position : Nat) :
    Runnable source declares nesting fun operand =>
      ifExpression source (expression operand) position := by
  refine (quiet_expect source .lparen _).leads fun _ => (quiet_position source).leads fun _ =>
    (reads _).bind fun condition =>
      (refuses_requireScalar source condition _).quiet.leads fun test =>
        (quiet_eat source .comma).leads fun _ => runnable_ite ?_ ?_
  · exact (reads _).bind fun yes => (quiet_expect source .comma _).leads fun _ =>
      (reads _).bind fun no => (quiet_expect source .rparen _).leads fun _ =>
        (refuses_conditional source test yes (some no)).quiet.runnable
  · exact (quiet_expect source .rparen _).leads fun _ => (reads _).bind fun yes =>
      (runnable_otherwise reads).bind fun no =>
        (refuses_conditional source test yes no).quiet.runnable

theorem runnable_switchCases (fuel : Nat) (c : Cases) :
    Runnable source declares nesting fun operand =>
      switchCases source (expression operand) fuel c := by
  induction fuel generalizing c with
  | zero => exact runnable_stalled
  | succ fuel ih =>
      refine (quiet_eatAll source _ _).leads fun _ => (quiet_position source).leads fun here =>
        (quiet_eatWord source _).leads fun _ => runnable_ite ?_ <|
          (quiet_eatWord source _).leads fun _ => runnable_ite ?_ <|
            (quiet_eat source .rbrace).leads fun _ => runnable_ite (runnable_pure _) <|
              (quiet_peek source).leads fun _ => runnable_fail here _
      · exact (reads _).bind fun condition =>
          (refuses_requireScalar source condition _).quiet.leads fun test =>
            (quiet_expect source .colon _).leads fun _ => (reads _).bind fun body =>
              (refuses_addCase source c (some test) body).quiet.leads fun c => ih c
      · exact runnable_ite (runnable_fail here _) <|
          (quiet_expect source .colon _).leads fun _ => (reads _).bind fun body =>
            (refuses_addCase source c none body).quiet.leads fun c => ih c

theorem runnable_switch :
    Runnable source declares nesting fun operand => switch source (expression operand) :=
  (quiet_expect source .lbrace _).leads fun _ => runnable_switchCases reads _ _

/-! ### Loops -/

theorem runnable_loopBody :
    Runnable source declares nesting fun operand => loopBody (expression operand) :=
  (reads _).inLoop.bind fun _ => runnable_pure _

theorem runnable_forParts :
    Runnable source true nesting fun operand => forParts source (expression operand) := by
  have start : Runnable source true nesting fun operand => loopStart source (expression operand) :=
    (quiet_check source .semicolon).leads fun _ => runnable_ite (runnable_pure none) <|
      (quiet_checkWord source _).leads fun _ => runnable_ite
        ((runnable_declaration reads false).bind fun _ => runnable_pure _)
        ((reads true).bind fun _ => runnable_pure _)
  have test : Runnable source true nesting fun operand => loopTest source (expression operand) :=
    (quiet_check source .semicolon).leads fun _ => runnable_ite (runnable_pure none) <|
      (runnable_scalarExpression (reads true) _).bind fun _ => runnable_pure _
  have step : Runnable source true nesting fun operand => loopStep source (expression operand) :=
    (quiet_check source .rparen).leads fun _ => runnable_ite (runnable_pure none) <|
      (reads true).bind fun _ => runnable_pure _
  exact start.bind fun _ => (quiet_expect source .semicolon _).leads fun _ => test.bind fun _ =>
    (quiet_expect source .semicolon _).leads fun _ => step.bind fun _ =>
      (quiet_expect source .rparen _).leads fun _ => (runnable_loopBody reads).bind fun _ =>
        runnable_pure _

theorem runnable_forLoop :
    Runnable source declares nesting fun operand => forLoop source (expression operand) :=
  (quiet_expect source .lparen _).leads fun _ => (runnable_forParts reads).inScope

theorem runnable_whileLoop :
    Runnable source declares nesting fun operand => whileLoop source (expression operand) :=
  (quiet_expect source .lparen _).leads fun _ =>
    (runnable_scalarExpression (reads _) _).bind fun _ =>
      (quiet_expect source .rparen _).leads fun _ => (runnable_loopBody reads).bind fun _ =>
        runnable_pure _

theorem runnable_repeatLoop (position : Nat) :
    Runnable source declares nesting fun operand =>
      repeatLoop source (expression operand) position :=
  (runnable_block reads .until).inLoop.bind fun _ => (quiet_eatWord source _).leads fun _ =>
    runnable_ite
      ((quiet_expect source .lparen _).leads fun _ =>
        (runnable_scalarExpression (reads _) _).bind fun _ =>
          (quiet_expect source .rparen _).leads fun _ => runnable_pure _)
      (runnable_fail position _)

theorem runnable_breakExpression (position : Nat) :
    Runnable source declares nesting fun operand =>
      breakExpression source (expression operand) position :=
  (quiet_requireLoop source position _).leads fun _ => (quiet_eat source .lbracket).leads fun _ =>
    runnable_ite
      ((runnable_scalarExpression (reads _) _).bind fun _ =>
        (quiet_expect source .rbracket _).leads fun _ => runnable_pure _)
      (runnable_pure _)

omit reads in
theorem runnable_continueExpression (position : Nat) :
    Runnable source declares nesting fun _ => continueExpression source position :=
  (quiet_requireLoop source position _).leads fun _ => runnable_pure _

theorem runnable_returnExpression :
    Runnable source declares nesting fun operand => returnExpression source (expression operand) :=
  (quiet_eat source .lbracket).leads fun _ => runnable_ite
    ((quiet_eat source .rbracket).leads fun _ => runnable_ite (runnable_pure _) <|
      (runnable_commaList (reads _) _ _ _ _).bind fun _ => runnable_pure _)
    (runnable_pure _)

/-! ### Names -/

theorem runnable_bound (close : Sym) :
    Runnable source declares nesting fun operand => bound? source (expression operand) close :=
  (quiet_check source close).leads fun _ => runnable_ite (runnable_pure none) <|
    (runnable_scalarExpression (reads _) _).bind fun _ => runnable_pure _

theorem runnable_access (b : Binding) (position : Nat) :
    Runnable source declares nesting fun operand =>
      access source (expression operand) b position := by
  refine (quiet_check source .lbracket).leads fun _ => runnable_ite (runnable_pure _) <|
    runnable_ite (runnable_fail position _) <| (quiet_advance source).leads fun _ =>
      (quiet_eat source .rbracket).leads fun _ => runnable_ite (runnable_pure _) <|
        (runnable_bound reads .colon).bind fun first => (quiet_eat source .colon).leads fun _ =>
          runnable_ite ?_ ?_
  · exact (runnable_bound reads .rbracket).bind fun _ =>
      (quiet_expect source .rbracket _).leads fun _ => runnable_pure _
  · refine (quiet_expect source .rbracket _).leads fun _ => ?_
    cases first with
    | some index => exact runnable_pure _
    | none => exact runnable_fail position _

theorem runnable_arguments :
    Runnable source declares nesting fun operand => arguments? source (expression operand) :=
  (quiet_eat source .lparen).leads fun _ => runnable_ite
    ((quiet_eat source .rparen).leads fun _ => runnable_ite (runnable_pure _) <|
      (runnable_commaList (reads _) _ _ _ _).bind fun _ => runnable_pure _)
    (runnable_pure none)

theorem runnable_symbolNode (name : String) (symbol : Symbol) (position : Nat) :
    Runnable source declares nesting fun operand =>
      symbolNode source (expression operand) name symbol position := by
  cases symbol with
  | function f =>
      exact (runnable_arguments reads).bind fun args =>
        (refuses_call source name f (args.getD [])).quiet.runnable
  | scalar | vector | string | constant => exact runnable_access reads _ position

theorem runnable_identifier (name : String) (position : Nat) :
    Runnable source declares nesting fun operand =>
      identifier source (expression operand) name position := by
  refine quiet_get.leads fun s => ?_
  split
  · exact runnable_access reads _ position
  · split
    · exact runnable_symbolNode reads name _ position
    · refine runnable_ite ((runnable_arguments reads).bind fun found => ?_)
        (runnable_fail position _)
      cases found with
      | some args => exact (refuses_builtin source name args).quiet.runnable
      | none => exact runnable_fail position _

/-! ### Operands -/

theorem runnable_word (name : String) (position : Nat) :
    Runnable source declares nesting fun operand =>
      word source (expression operand) name position := by
  unfold word
  split
  · exact runnable_pure _
  · exact runnable_pure _
  · exact runnable_pure _
  · exact runnable_ifExpression reads position
  · exact runnable_switch reads
  · exact runnable_forLoop reads
  · exact runnable_whileLoop reads
  · exact runnable_repeatLoop reads position
  · exact runnable_breakExpression reads position
  · exact runnable_continueExpression position
  · exact runnable_returnExpression reads
  · exact runnable_fail position _
  · exact runnable_fail position _
  · exact runnable_identifier reads name position

theorem runnable_primary :
    Runnable source declares nesting fun operand => primary source (expression operand) := by
  refine (quiet_position source).leads fun here => (quiet_check source .semicolon).leads fun _ =>
    runnable_ite (runnable_fail here _) <| (quiet_advance source).leads fun found => ?_
  split
  · exact runnable_fail here _
  · exact runnable_pure _
  · exact runnable_pure _
  · exact runnable_word reads _ here
  · exact (reads _).bind fun inner => (quiet_expect source .rparen _).leads fun _ =>
      runnable_pure inner
  · exact runnable_brace reads here
  · exact runnable_fail here _

end

theorem runnable_prefixed
    (operands : ∀ declares, Runnable source declares nesting fun operand => operand) :
    Runnable source declares nesting (prefixed source) := by
  have chains : Runnable source declares nesting fun operand =>
      chain source operand unaryPrecedence := runnable_chain (operands declares) unaryPrecedence
  refine (quiet_position source).leads fun here => (quiet_peek source).leads fun found => ?_
  have negation : Runnable source declares nesting fun operand => do
      let _ ← advance source
      let node ← chain source operand unaryPrecedence
      let tree ← requireScalar source node here "operand of 'not'"
      return scalarNode (.apply .not [tree]) :=
    (quiet_advance source).leads fun _ => chains.bind fun node =>
      (refuses_requireScalar source node _).quiet.leads fun _ => runnable_pure _
  split
  · exact (quiet_advance source).leads fun _ => chains.bind fun node =>
      runnable_ite (runnable_fail here _) (runnable_pure _)
  · exact (quiet_advance source).leads fun _ => chains.bind fun node =>
      runnable_ite (runnable_fail here _) (runnable_pure _)
  · exact negation
  · exact negation
  · exact runnable_primary fun declares => runnable_expression (operands declares)

/-- By the levels that are left: an operand has operands inside of it one level further in. -/
theorem runnable_operand (source : Source) (declares : Bool) (nesting : Nat) :
    Runnable source declares nesting fun operand => operand := by
  induction levels : source.limits.nesting - nesting generalizing declares nesting with
  | zero => exact fun s => ⟨_, .refused (Nat.le_of_sub_eq_zero levels)⟩
  | succ levels ih =>
      intro s
      have room : nesting < source.limits.nesting := by omega
      have inner : Runnable source false (nesting + 1) (prefixed source) :=
        runnable_prefixed fun declares => ih declares (nesting + 1) (by omega)
      obtain ⟨r, run⟩ := inner s
      exact ⟨_, .operand room run⟩

/-! ### All parsing functions -/

theorem Routine.runnable (source : Source) (nesting : Nat) (routine : Routine) :
    Runnable source routine.declares nesting (routine.read source) := by
  have operands := fun declares => runnable_operand source declares nesting
  have reads := fun declares => runnable_expression (operands declares)
  cases routine with
  | statements stop fuel items => exact runnable_statements reads stop fuel items
  | block stop => exact runnable_block reads stop
  | statement => exact runnable_statement reads
  | declaration constant => exact runnable_declaration reads constant
  | vectorDeclaration name position => exact runnable_vectorDeclaration (reads _) name position
  | expression => exact reads _
  | scalarExpression what => exact runnable_scalarExpression (reads _) what
  | scalarList close => exact runnable_scalarList (reads _) close
  | ternary => exact runnable_ternary (operands _) (reads _)
  | binary fuel least => exact (runnable_binary (operands _) fuel).1 least
  | operand => exact operands _
  | prefixed => exact runnable_prefixed operands
  | primary => exact runnable_primary reads
  | word name position => exact runnable_word reads name position
  | brace position => exact runnable_brace reads position
  | ifExpression position => exact runnable_ifExpression reads position
  | switch => exact runnable_switch reads
  | loopBody => exact runnable_loopBody reads
  | forLoop => exact runnable_forLoop reads
  | forParts => exact runnable_forParts reads
  | whileLoop => exact runnable_whileLoop reads
  | repeatLoop position => exact runnable_repeatLoop reads position
  | breakExpression position => exact runnable_breakExpression reads position
  | continueExpression position => exact runnable_continueExpression position
  | returnExpression => exact runnable_returnExpression reads
  | identifier name position => exact runnable_identifier reads name position
  | access b position => exact runnable_access reads b position
  | arguments => exact runnable_arguments reads
  | call name callable position =>
      exact runnable_symbolNode reads name (.function callable) position

/-- A whole text is read inside of no operand. Where its reading ends, the scope it began in is the
innermost again, and as many loops are open as were. -/
theorem program_balanced (source : Source) (s : State) :
    Balanced true ⟨s, 0⟩ ⟨lastState (program source s), 0⟩ := by
  have runs : Runnable source true 0 fun operand =>
      statements source (expression source operand) .input source.allowance [] :=
    Routine.runnable source 0 (.statements .input source.allowance [])
  obtain ⟨r, run⟩ := runs s
  have ended : program source s = through Tally.state r := run.reads
  rw [ended, lastState_through]
  exact { run.balanced with nesting := rfl }

/-- Every parsing function leaves what it has entered. From whatever state and with however many
operands open it is called, it has one run that counts, which ends as the function does with the
levels that are left. However it ends, also where the limit of diagnostics has ended the tokens, as
many scopes, loops and operands are open as when it was called, the outer scopes are what they were,
the innermost has at most gained names, and the frame has not become smaller. -/
theorem routines_balanced (source : Source) (routine : Routine) (t : Tally) :
    ∃ r, (∀ r', Runs source routine.declares (routine.read source) t r' ↔ r' = r) ∧
      routine.read source (operand source (t.levels source)) t.state = through Tally.state r ∧
      Balanced routine.declares t (lastState r) := by
  obtain ⟨r, run⟩ := routine.runnable source t.nesting t.state
  refine ⟨r, fun r' => ⟨run.unique, ?_⟩, run.reads, run.balanced⟩
  rintro rfl
  exact run

end MathScript.Parse
