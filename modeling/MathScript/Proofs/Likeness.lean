import MathScript.Proofs.Kindred

/-!
The parts of a program, one after another, each its own twin: operators, lists, declarations,
blocks, loops and names, then operands at every level of nesting, and at last a whole text. Further
out stand the parts of an expression that holds no bracket; the others stand behind a token that
leads further in.
-/

namespace MathScript.Parse

open Renamable

variable {ι : Type} {c : Sides ι} {b : Bool}

namespace Sides.Fuels

variable {fuel further : Nat}

theorem succ (rounds : c.Fuels fuel further) : c.Fuels (fuel + 1) (further + 1) :=
  rounds.imp (congrArg (· + 1)) (And.imp_right Nat.succ_le_succ)

/-- Rounds are counted down on all sides, and on a patient one they may end first. -/
theorem induction {P : ∀ fuel further, c.Fuels fuel further → Prop}
    (none : P 0 0 (.inl rfl))
    (first : ∀ (patient : c.patient) further, P further further (.inl rfl) →
      P 0 further (.inr ⟨patient, Nat.zero_le further⟩))
    (round : ∀ fuel further rounds, P fuel further rounds →
      P (fuel + 1) (further + 1) rounds.succ)
    {fuel further : Nat} (rounds : c.Fuels fuel further) : P fuel further rounds := by
  induction further generalizing fuel with
  | zero =>
      obtain rfl : fuel = 0 := by
        rcases rounds with same | ⟨-, fewer⟩
        · exact same
        · exact Nat.le_zero.mp fewer
      exact none
  | succ further ih =>
      cases fuel with
      | zero =>
          rcases rounds with same | ⟨patient, -⟩
          · cases same
          · exact first patient _ (round further further _ (ih (.inl rfl)))
      | succ fuel =>
          refine round fuel further ?_ (ih ?_)
          all_goals
            exact rounds.imp Nat.succ.inj (And.imp_right Nat.le_of_succ_le_succ)

end Sides.Fuels

namespace Twins

theorem stalledAll {α : Type} [Renamable α] :
    Twins c b (Parse.stalled c.source : Parse α) fun i => Parse.stalled (c.others i) :=
  .fail c.origin fun _ _ => rfl

/-! ### Operators -/

section

variable {operand : Parse Typed} {operands : ι → Parse Typed}
variable (reads : Twins c false operand operands)

include reads

theorem binary_climb {fuel further : Nat} (rounds : c.Fuels fuel further) :
    (∀ least, Twins c false (binary c.source operand fuel least) fun i =>
      binary (c.others i) (operands i) further least) ∧
    ∀ least left, Twins c false (climb c.source operand fuel least left) fun i =>
      climb (c.others i) (operands i) further least (rename (c.naming i) left) := by
  induction rounds using Sides.Fuels.induction with
  | none =>
      simp only [binary, climb]
      exact ⟨fun _ => stalledAll, fun _ _ => stalledAll⟩
  | first patient further longer =>
      refine ⟨fun least => ?_, fun least left => ?_⟩
      · rw [binary]
        exact .stalled patient (longer.1 least)
      · rw [climb]
        exact .stalled patient (longer.2 least left)
  | round fuel further rounds ih =>
      obtain ⟨binaries, climbs⟩ := ih
      refine ⟨fun least => ?_, fun least left => ?_⟩
      · simp only [binary]
        exact .bind reads fun left => climbs least left
      · simp only [climb_succ]
        refine .take (operator? least) (fun _ _ => rfl) (fun _ => rfl)
          (fun t op found here there near => ?_) (.done left)
        exact .bind ((binaries _).anywhere _) fun right =>
          .bind (combine near op left right) fun node => (climbs least node).anywhere _

theorem chain (least : Nat) : Twins c false (Parse.chain c.source operand least) fun i =>
    Parse.chain (c.others i) (operands i) least := by
  unfold Parse.chain
  simp only [c.allowance]
  exact (binary_climb reads c.allowed).1 least

theorem ternary {again : Parse Typed} {agains : ι → Parse Typed}
    (further : Twins c false again agains) :
    Twins c false (Parse.ternary c.source operand again) fun i =>
      Parse.ternary (c.others i) (operands i) (agains i) := by
  refine .position fun here there near => .bind (chain reads 1) fun condition =>
    eat .question (fun _ => by decide) ?_ (.done condition)
  exact .bind (requireScalar near condition _) fun test => .bind further fun yes =>
    expect .colon _ (fun _ => by decide) <| .bind further fun no =>
      conditional near test yes (some no)

theorem expressions {fuel further : Nat} (rounds : c.Fuels fuel further) :
    Twins c false (Parse.expressions c.source operand fuel) fun i =>
      Parse.expressions (c.others i) (operands i) further := by
  induction rounds using Sides.Fuels.induction with
  | none => exact stalledAll
  | first patient further longer => exact .stalled patient longer
  | round fuel further rounds again =>
      simp only [expressions_succ]
      refine .position fun here there near => .bind (ternary reads again) fun left =>
        .take assigns? (fun _ _ => rfl) (fun _ => rfl) (fun t op found _ _ _ => ?_) (.done left)
      cases op with
      | some op => exact .bind (again.anywhere _) fun value => assignment near left op value
      | none =>
          exact .bind ((ternary reads again).anywhere _) fun right => exchange near left right

theorem expression : Twins c false (Parse.expression c.source operand) fun i =>
    Parse.expression (c.others i) (operands i) := by
  unfold Parse.expression
  simp only [c.allowance]
  exact expressions reads c.allowed

end

/-! ### Lists and declarations -/

theorem commaRounds {α : Type} [Renamable α] {item : Parse α} {others : ι → Parse α}
    (items : Twins c true item others) (close : Sym) (context : String) {fuel further : Nat}
    (rounds : c.Fuels fuel further) (found : List α) :
    Twins c true (Parse.commaList c.source item close context fuel found) fun i =>
      Parse.commaList (c.others i) (others i) close context further
        (rename (c.naming i) found) := by
  induction rounds using Sides.Fuels.induction generalizing found with
  | none => exact stalledAll
  | first patient further longer => exact .stalled patient (longer found)
  | round fuel further rounds ih =>
      refine .bind items fun a => eatIn .comma (ih (a :: found)) ?_
      exact expectIn close context (result fun i => by simp)

theorem commaList {α : Type} [Renamable α] {item : Parse α} {others : ι → Parse α}
    (items : Twins c true item others) (close : Sym) (context : String) :
    Twins c true (Parse.commaList c.source item close context c.source.allowance []) fun i =>
      Parse.commaList (c.others i) (others i) close context (c.others i).allowance [] := by
  simp only [c.allowance]
  exact commaRounds items close context c.allowed []

section

variable {e : Parse Typed} {es : ι → Parse Typed} (reads : Twins c false e es)

include reads

theorem scalarExpression (what : String) :
    Twins c b (Parse.scalarExpression c.source e what) fun i =>
      Parse.scalarExpression (c.others i) (es i) what :=
  .position fun _ _ near => .bind (reads.anywhere b) fun node => requireScalar near node what

theorem scalarList (close : Sym) : Twins c true (Parse.scalarList c.source e close) fun i =>
    Parse.scalarList (c.others i) (es i) close :=
  eatIn close (.done []) <|
    commaList (scalarExpression reads _) close _

theorem declaredLength : Twins c true (Parse.declaredLength c.source e) fun i =>
    Parse.declaredLength (c.others i) (es i) :=
  eatIn .rbracket (.done none) <| .position fun _ _ near =>
    .bind (scalarExpression reads _) fun size => expectIn .rbracket _ <|
      .bind (.vectorLength near size) fun length => .done (some length)

variable {name : String} {names : ι → String} (same : ∀ i, c.Plain i → names i = name)

include same

theorem vectorFill (length : Option Nat) :
    Twins c true (Parse.vectorFill c.source e name length) fun i =>
      Parse.vectorFill (c.others i) (es i) (names i) length := by
  refine eatIn (.assign .set) (.position fun here there near => ?_) (.done (Fill.zero, []))
  refine eatIn .lbrace ?_ (eatIn .lbracket ?_ ?_)
  · refine .bind (scalarList reads .rbrace) fun items => ?_
    simp only [rename_list, List.length_map]
    exact .bind (checkCount near items.length name names same length) fun _ =>
      .done (Fill.literal, items)
  · exact .bind (scalarExpression reads _) fun item => expectIn .rbracket _ <|
      .done (Fill.each, [item])
  · refine .bind (reads.anywhere true) fun value => ite (fun _ => .rfl) (fun _ => ?_) fun _ => ?_
    · exact .done (Fill.copy, [value.tree])
    · exact .fail near fun i plain => by rw [same i plain, kind_rename]

variable {here : Nat} {there : ι → Nat} (near : c.Near here there)

include near

theorem vectorDeclaration :
    Twins c true (Parse.vectorDeclaration c.source e name here) fun i =>
      Parse.vectorDeclaration (c.others i) (es i) (names i) (there i) := by
  refine .bind (declaredLength reads) fun length => ?_
  simp only [rename_length]
  refine .bind (vectorFill reads same length) ?_
  rintro ⟨fill, parts⟩
  have unknown : Twins c true (Parse.fail c.source here (.unknownSize name) : Parse (Shape × List Tree))
      fun i => Parse.fail (c.others i) (there i) (.unknownSize (names i)) :=
    .fail near fun i plain => by rw [same i plain]
  cases length with
  | some n => exact .done (Shape.vector n fill, parts)
  | none =>
      cases fill with
      | literal =>
          cases parts with
          | nil => exact unknown
          | cons part parts =>
              exact result (a := (Shape.vector (part :: parts).length .literal, part :: parts))
                fun i => by simp
      | zero | each | copy => exact unknown

theorem initialValue (constant : Bool) :
    Twins c true (Parse.initialValue c.source e name constant here) fun i =>
      Parse.initialValue (c.others i) (es i) (names i) constant (there i) := by
  refine eatIn .lbracket (vectorDeclaration reads same near) <|
    eatIn (.assign .set) (.position fun here there near => ?_) <|
      ite (fun _ => .rfl) (fun _ => .fail near fun i plain => by rw [same i plain]) fun _ =>
        .done (Shape.scalar, [])
  refine .bind (reads.anywhere true) fun value => ?_
  simp only [kind_rename]
  cases value.kind with
  | scalar => exact .done (Shape.scalar, [value.tree])
  | string => exact .done (Shape.string, [value.tree])
  | vector => exact .fail near fun i plain => by rw [same i plain]

end

/-! ### Statements and blocks -/

section

variable {e : Parse Typed} {es : ι → Parse Typed} (reads : Twins c false e es)

include reads

theorem values (constant : Bool) (name : String) (names : ι → String)
    (same : ∀ i, c.Plain i → names i = name) (here : Nat) (there : ι → Nat)
    (near : c.Near here there) :
    Twins c true (Parse.initialValue c.source e name constant here) fun i =>
      Parse.initialValue (c.others i) (es i) (names i) constant (there i) :=
  initialValue reads same near constant

theorem statement : Twins c false (Parse.statement c.source e) fun i =>
    Parse.statement (c.others i) (es i) := by
  have declares : ∀ {b : Bool} {constant : Bool} {x : Parse Typed} {y : ι → Parse Typed},
      Twins c b x y → Twins c b
        (do if ← checkWord c.source "var" then declaration c.source e constant else x)
        (fun i => do
          if ← checkWord (c.others i) "var" then declaration (c.others i) (es i) constant
          else y i) := by
    intro b constant x y other
    simpa only [bind_pure] using
      Twins.declaring (g := fun _ => pure) (values reads constant) .done other
  refine declares <| eatWord "const" (by decide) (by decide) (declares ?_) reads
  exact .position fun here there near => .fail near fun _ _ => rfl

theorem block (stop : Stop) : Twins c true (Parse.block c.source e stop) fun i =>
    Parse.block (c.others i) (es i) stop := by
  unfold Parse.block
  simp only [c.allowance]
  exact .inScope (.statements (statement reads) c.allowed stop [])

/-! ### Control -/

omit reads in
theorem eatRounds (sym : Sym) {fuel further : Nat} (rounds : c.Fuels fuel further) :
    Twins c true (Parse.eatAll c.source sym fuel) fun i =>
      Parse.eatAll (c.others i) sym further := by
  induction rounds using Sides.Fuels.induction with
  | none => exact stalledAll
  | first patient further longer => exact .stalled patient longer
  | round fuel further rounds ih => exact eatIn sym ih (.done ())

omit reads in
theorem eatAll (sym : Sym) : Twins c true (Parse.eatAll c.source sym c.source.allowance) fun i =>
    Parse.eatAll (c.others i) sym (c.others i).allowance := by
  simp only [c.allowance]
  exact eatRounds sym c.allowed

theorem switchCases {fuel further : Nat} (rounds : c.Fuels fuel further) (cases : Cases) :
    Twins c true (Parse.switchCases c.source e fuel cases) fun i =>
      Parse.switchCases (c.others i) (es i) further (rename (c.naming i) cases) := by
  induction rounds using Sides.Fuels.induction generalizing cases with
  | none => exact stalledAll
  | first patient further longer => exact .stalled patient (longer cases)
  | round fuel further rounds ih =>
      have tree : ∀ i, (rename (c.naming i) cases).tree = rename (c.naming i) cases.tree :=
        fun i => cases_tree_rename _ cases
      have expression := reads.inside
      refine .bind (eatAll .semicolon) fun _ => .position fun here there near =>
        eatWord "case" (by decide) (by decide) ?_ <| eatWord "default" (by decide) (by decide) ?_ <|
          eatIn .rbrace (result tree) (.refuse near fun _ _ => rfl)
      · exact .bind expression fun condition => .bind (requireScalar near condition _) fun test =>
          expectIn .colon _ <| .bind expression fun body =>
            .bind (addCase near cases (some test) body) fun cases => ih cases
      · refine ite (fun i => ?_) (fun _ => .fail near fun _ _ => rfl) fun _ =>
          expectIn .colon _ <| .bind expression fun body =>
            .bind (addCase near cases none body) fun cases => ih cases
        exact iff_of_eq (congrArg (· = true) (Option.isSome_map ..))

theorem switch : Twins c false (Parse.switch c.source e) fun i =>
    Parse.switch (c.others i) (es i) := by
  unfold Parse.switch
  simp only [c.allowance]
  exact expect .lbrace _ (fun _ => by decide) (switchCases reads c.allowed ⟨[], none, none⟩)

theorem loopBody : Twins c true (Parse.loopBody e) fun i => Parse.loopBody (es i) :=
  .bind (.inLoop reads.inside) fun node => .done node.tree

theorem loopStart : Twins c true (Parse.loopStart c.source e) fun i =>
    Parse.loopStart (c.others i) (es i) := by
  refine checkIn .semicolon (.done none) ?_
  exact .declaring (values reads false) (fun node => .done (some node.tree)) <|
    .bind reads.inside fun node => .done (some node.tree)

theorem forRest (first : Option Tree) : Twins c true (Parse.forRest c.source e first) fun i =>
    Parse.forRest (c.others i) (es i) (rename (c.naming i) first) := by
  have test : Twins c true (loopTest c.source e) fun i => loopTest (c.others i) (es i) :=
    checkIn .semicolon (.done none) <| .bind (scalarExpression reads _) fun t => .done (some t)
  have step : Twins c true (loopStep c.source e) fun i => loopStep (c.others i) (es i) :=
    checkIn .rparen (.done none) <| .bind reads.inside fun node => .done (some node.tree)
  refine expectIn .semicolon _ <| .bind test fun test => expectIn .semicolon _ <|
    .bind step fun step => expectIn .rparen _ <| .bind (loopBody reads) fun body =>
      result fun i => ?_
  simp [scalarNode, Tree.renameOption_eq]

theorem forLoop : Twins c false (Parse.forLoop c.source e) fun i =>
    Parse.forLoop (c.others i) (es i) :=
  expect .lparen _ (fun _ => by decide) <| .inScope <|
    .bind (loopStart reads) fun first => forRest reads first

theorem whileLoop : Twins c false (Parse.whileLoop c.source e) fun i =>
    Parse.whileLoop (c.others i) (es i) :=
  expect .lparen _ (fun _ => by decide) <| .bind (scalarExpression reads _) fun test =>
    expectIn .rparen _ <| .bind (loopBody reads) fun body => .done _

theorem returnExpression : Twins c false (Parse.returnExpression c.source e) fun i =>
    Parse.returnExpression (c.others i) (es i) := by
  refine eat .lbracket (fun _ => by decide) (eatIn .rbracket (.done _) ?_) (.done _)
  refine .bind (commaList reads.inside .rbracket _) fun items =>
    result fun i => ?_
  simp [scalarNode, Tree.renameList_eq]

section

variable {here : Nat} {there : ι → Nat} (near : c.Near here there)

include near

theorem brace : Twins c true (Parse.brace c.source e here) fun i =>
    Parse.brace (c.others i) (es i) (there i) := by
  refine eatIn .rbrace (.done _) <| .bind .vectorAhead fun vector => ite (fun _ => .rfl)
    (fun _ => ?_) fun _ => ?_
  · refine .bind (scalarList reads .rbrace) fun items => result fun i => ?_
    simp [Tree.renameList_eq]
  · refine .bind (block reads .brace) fun items => eatIn .rbrace (result fun i => ?_) ?_
    · exact sequence_rename _ items
    · exact .fail near fun _ _ => rfl

theorem ifExpression : Twins c false (Parse.ifExpression c.source e here) fun i =>
    Parse.ifExpression (c.others i) (es i) (there i) := by
  have expression := reads.inside
  refine expect .lparen _ (fun _ => by decide) <| .position fun _ _ condition' =>
    .bind expression fun condition => .bind (requireScalar condition' condition _) fun test =>
      eatIn .comma ?_ ?_
  · exact .bind expression fun yes => expectIn .comma _ <| .bind expression fun no =>
      expectIn .rparen _ <| conditional near test yes (some no)
  · exact expectIn .rparen _ <| .bind expression fun yes => .bind (.otherwise expression) fun no =>
      conditional near test yes no

theorem repeatLoop : Twins c true (Parse.repeatLoop c.source e here) fun i =>
    Parse.repeatLoop (c.others i) (es i) (there i) := by
  refine .bind (.inLoop (block reads .until)) fun items =>
    eatWord "until" (by decide) (by decide) ?_ (.fail near fun _ _ => rfl)
  refine expectIn .lparen _ <| .bind (scalarExpression reads _) fun stop =>
    expectIn .rparen _ <| result fun i => ?_
  rw [sequence_rename]
  rfl

theorem breakExpression : Twins c false (Parse.breakExpression c.source e here) fun i =>
    Parse.breakExpression (c.others i) (es i) (there i) :=
  .bind (.requireLoop near "break") fun _ => eat .lbracket (fun _ => by decide)
    (.bind (scalarExpression reads _) fun value => expectIn .rbracket _ (.done _)) (.done _)

omit reads in
theorem continueExpression : Twins c false (Parse.continueExpression c.source here) fun i =>
    Parse.continueExpression (c.others i) (there i) :=
  .bind (.requireLoop near "continue") fun _ => .done _

end

/-! ### Names -/

theorem arguments : Twins c false (arguments? c.source e) fun i =>
    arguments? (c.others i) (es i) :=
  eat .lparen (fun _ => by decide) (eatIn .rparen (.done (some [])) <|
    .bind (commaList reads.inside .rparen _) fun args => .done (some args))
    (.done none)

theorem bound (close : Sym) : Twins c true (bound? c.source e close) fun i =>
    bound? (c.others i) (es i) close :=
  checkIn close (.done none) <| .bind (scalarExpression reads _) fun t => .done (some t)

section

variable {here : Nat} {there : ι → Nat} (near : c.Near here there)

include near

theorem indexed (binding : Binding) : Twins c true (Parse.indexed c.source e binding here) fun i =>
    Parse.indexed (c.others i) (es i) (binding.rename (c.naming i)) (there i) := by
  refine eatIn .rbracket (.done _) <| .bind (bound reads .colon) fun first => eatIn .colon ?_ ?_
  · refine .bind (bound reads .rbracket) fun last => expectIn .rbracket _ <| result fun i => ?_
    simp [Tree.renameOption_eq]
  · refine expectIn .rbracket _ ?_
    cases first with
    | none => exact .fail near fun _ _ => rfl
    | some index => exact result fun i => by simp

theorem access (binding : Binding) : Twins c false (Parse.access c.source e binding here) fun i =>
    Parse.access (c.others i) (es i) (binding.rename (c.naming i)) (there i) := by
  by_cases scalar : binding.kind = .scalar
  · have others : ∀ i, (binding.rename (c.naming i)).kind = .scalar := by simp [scalar]
    simp only [access_scalar _ _ scalar, access_scalar _ _ (others _)]
    refine check .lbracket (fun _ => by decide) fun bracket => ite (fun _ => .rfl)
      (fun _ => result fun i => ?_) fun _ => .fail near fun i plain => ?_
    · simp
    · rw [plain, Binding.rename_none]
  · have others : ∀ i, (binding.rename (c.naming i)).kind ≠ .scalar := by simp [scalar]
    simp only [access_indexed _ _ scalar, access_indexed _ _ (others _)]
    refine .take _ (fun _ _ => rfl) (fun _ => rfl) (fun t r found _ _ _ => ?_)
      (result fun i => by simp)
    obtain ⟨rfl, -⟩ := Option.ite_none_right_eq_some.mp found
    exact indexed reads near binding

theorem symbolNode (name : String) (s : Symbol) :
    Twins c false (Parse.symbolNode c.source e name s here) fun i =>
      Parse.symbolNode (c.others i) (es i) name s (there i) := by
  unfold Parse.symbolNode
  simp only [c.table]
  cases s with
  | function f =>
      refine .bind (arguments reads) fun args => ?_
      cases args with
      | none => exact call near name f []
      | some args => exact call near name f args
  | scalar cell => exact access reads near ⟨name, .scalar cell, !c.source.table.immutable⟩
  | constant x => exact access reads near ⟨name, .constant x, false⟩
  | vector cell => exact access reads near ⟨name, .vector cell, !c.source.table.immutable⟩
  | string cell => exact access reads near ⟨name, .string cell, !c.source.table.immutable⟩

theorem global (name : String) : Twins c false (Parse.global c.source e name here) fun i =>
    Parse.global (c.others i) (es i) name (there i) := by
  unfold Parse.global
  simp only [c.table]
  cases c.source.table.find? name with
  | some s => exact symbolNode reads near name s
  | none =>
      refine ite (fun _ => .rfl) (fun _ => .bind (arguments reads) fun args => ?_) fun _ =>
        .fail near fun _ _ => rfl
      cases args with
      | none => exact .fail near fun _ _ => rfl
      | some args => exact builtin near name args

end

end

/-! ### Operands -/

section

variable {inner : Parse Typed} {inners : ι → Parse Typed} (reads : Twins c false inner inners)
variable {here : Nat} {there : ι → Nat} (near : c.Near here there)

include reads near

theorem headed {t : Token} (other : ∀ name, t = .word name → steers name = true) :
    Twins c (false || leads t) (Parse.headed c.source inner here t) fun i =>
      Parse.headed (c.others i) (inners i) (there i) t := by
  have expressions := expression reads
  have chained := chain reads unaryPrecedence
  have negation : Twins c false (do
      let node ← Parse.chain c.source inner unaryPrecedence
      let tree ← Parse.requireScalar c.source node here "operand of 'not'"
      return scalarNode (.apply .not [tree])) fun i => do
      let node ← Parse.chain (c.others i) (inners i) unaryPrecedence
      let tree ← Parse.requireScalar (c.others i) node (there i) "operand of 'not'"
      return scalarNode (.apply .not [tree]) :=
    .bind chained fun node => .bind (requireScalar near node _) fun tree => .done _
  cases t with
  | number x => exact .done _
  | text s => exact .done _
  | word name =>
      have steering := other name rfl
      simp only [steers, List.contains_eq_mem, List.mem_cons, List.not_mem_nil, or_false,
        decide_eq_true_eq] at steering
      rcases steering with rfl | rfl | rfl | rfl | rfl | rfl | rfl | rfl | rfl | rfl | rfl | rfl |
        rfl | rfl
      · exact negation
      · exact .done _
      · exact .done _
      · exact .done _
      · exact ifExpression expressions near
      · exact switch expressions
      · exact forLoop expressions
      · exact whileLoop expressions
      · exact repeatLoop expressions near
      · exact breakExpression expressions near
      · exact continueExpression near
      · exact returnExpression expressions
      · exact .fail near fun _ _ => rfl
      · exact .fail near fun _ _ => rfl
  | sym sym =>
      have unexpected : ∀ {b : Bool}, Twins c b
          (Parse.fail c.source here (.unexpected (some (.sym sym))) : Parse Typed) fun i =>
            Parse.fail (c.others i) (there i) (.unexpected (some (.sym sym))) :=
        .fail near fun _ _ => rfl
      rcases sym with op | _ | _ | _ | _ | _ | _ | _ | _ | _ | _ | _ | _ | _
      case op =>
          cases op
          case minus =>
              exact .bind chained fun node => ite (fun _ => .rfl) (fun _ => .fail near fun _ _ => rfl)
                fun _ => .done _
          case plus =>
              exact .bind chained fun node => ite (fun _ => .rfl) (fun _ => .fail near fun _ _ => rfl)
                fun _ => .done _
          all_goals exact unexpected
      case bang => exact negation
      case lparen =>
          exact .bind expressions.inside fun node => expectIn .rparen _ (.done node)
      case lbrace => exact brace expressions near
      all_goals exact unexpected

end

/-- Operands at each level, if the sides that are not lax have as many levels as the first. -/
theorem operands {levels : Nat} {further : ι → Nat} (more : ∀ i, levels ≤ further i)
    (strict : ∀ i, ¬ c.lax i → further i = levels) :
    Twins c false (Parse.operand c.source levels) fun i =>
      blindOperand (c.others i) (c.unknown i) (further i) := by
  induction levels generalizing further with
  | zero =>
      refine .tooDeep fun i held => ?_
      rw [strict i held]
      rfl
  | succ levels ih =>
      obtain ⟨fewer, rfl⟩ : ∃ fewer, further = fun i => fewer i + 1 :=
        ⟨fun i => further i - 1, funext fun i => (Nat.sub_add_cancel (Nat.one_le_of_lt (more i))).symm⟩
      have inner := ih (fun i => Nat.le_of_succ_le_succ (more i)) fun i held =>
        Nat.succ.inj (strict i held)
      have expressions := expression inner
      exact .operand (fun t other _ _ near => headed inner near other)
        (fun binding _ _ near => access expressions near binding)
        fun name _ _ _ near => global expressions near name

/-- A text is its own twin. -/
theorem program (c : Sides ι) : Twins c true (Parse.program c.source) fun i =>
    blindProgram (c.others i) (c.unknown i) := by
  unfold Parse.program blindProgram
  simp only [c.allowance]
  exact .statements
    (statement <| expression <| operands c.nesting fun i held => (c.strict i held).1)
    c.allowed .input []

end Twins

/-- Where every local is known, operands are what they are. -/
theorem blindOperand_none (source : Source) (levels : Nat) :
    blindOperand source none levels = operand source levels := by
  induction levels with
  | zero => rfl
  | succ levels ih =>
      rw [blindOperand, ih]
      rfl

theorem blindProgram_none (source : Source) : blindProgram source none = program source := by
  rw [blindProgram, blindOperand_none]
  rfl

end MathScript.Parse
