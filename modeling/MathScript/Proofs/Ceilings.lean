import MathScript.Proofs.Levels

/-!
What is read of an operand is three levels higher than the operands inside of it, and by the signs
that are taken: every word that steers, every bracket and brace leads to such operands only. So a
program is as high as the levels of nesting that are allowed, with the statements around them.
-/

namespace MathScript.Parse

open MathScript.Tree

variable {limit bound bound' : Nat} {counted : Bool} (source : Source)

section

variable {expression : Parse Typed}
  (reaches : Reaches source.limits.vectorSize counted bound expression)

include reaches

/-! ### Braces and choices -/

theorem reaches_brace (position : Nat) :
    Reaches source.limits.vectorSize counted (bound + 3) (brace source expression position) := by
  apply (quiet_eat source .rbrace).paid
  intro _
  refine pays_ite (pays_pure (fits_leaf rfl rfl rfl (by omega))) ?_
  apply (quiet_vectorAhead source).paid
  intro _
  apply pays_ite
  · refine (pays_scalarList source reaches .rbrace).bind fun spent items within => ?_
    exact pays_pure (fits_above rfl rfl within (by omega))
  · refine (pays_block source reaches .brace).bind fun spent items fits => ?_
    apply (quiet_eat source .rbrace).paid
    intro _
    exact pays_ite (pays_pure (sequence_fits fits (by omega))) pays_throw

theorem pays_otherwise :
    Pays counted (otherwise? source expression) fun spent no =>
      ∀ n ∈ no, Fits source.limits.vectorSize counted (bound + spent) n := by
  have branch : Pays counted (do return some (← expression)) fun spent no =>
      ∀ n ∈ no, Fits source.limits.vectorSize counted (bound + spent) n :=
    reaches.bind fun spent n fits => pays_pure (by simpa using fits)
  have absent : Pays counted (pure none) fun spent (no : Option Typed) =>
      ∀ n ∈ no, Fits source.limits.vectorSize counted (bound + spent) n := pays_pure (by simp)
  apply (quiet_eatWord source "else").paid
  intro _
  apply pays_ite branch
  refine (quiet_check source .semicolon).paid fun _ => pays_ite ?_ absent
  refine (quiet_peekSecond source).paid fun _ => pays_ite ?_ absent
  exact (quiet_advance source).paid fun _ => (quiet_advance source).paid fun _ => branch

theorem reaches_ifExpression (position : Nat) :
    Reaches source.limits.vectorSize counted (bound + 3)
      (ifExpression source expression position) := by
  have choice : ∀ {condition yes : Typed} {no : Option Typed} {total : Nat → Nat} (high : Nat),
      Fits source.limits.vectorSize counted high condition →
      Fits source.limits.vectorSize counted high yes →
      (∀ n ∈ no, Fits source.limits.vectorSize counted high n) →
      (∀ spent, high + 1 ≤ total spent) →
      Pays counted (conditional source condition.tree yes no position) fun spent =>
        Fits source.limits.vectorSize counted (total spent) := by
    intro condition yes no total high fits yesFits noFits room
    have sides : ∀ p ∈ condition.tree :: yes.tree :: (no.map Typed.tree).toList,
        p.Within (HasSize source.limits.vectorSize) counted high := by
      refine List.forall_mem_cons.mpr ⟨fits.within, List.forall_mem_cons.mpr
        ⟨yesFits.within, fun t member => ?_⟩⟩
      obtain ⟨n, found, rfl⟩ : ∃ n, no = some n ∧ n.tree = t := by simpa using member
      exact (noFits n found).within
    have node := gives_raised (gives_conditional source condition.tree yes no position
      yesFits.right fun n member => (noFits n member).right) sides
    exact node.pays.mono fun spent n nFits => nFits.mono (room spent)
  apply (quiet_expect source .lparen _).paid
  intro _
  apply (quiet_position source).paid
  intro here
  refine reaches.bind fun spent condition fits => ?_
  refine (gives_requireScalar source condition here "condition").before ?_
  rintro _ rfl
  apply (quiet_eat source .comma).paid
  intro _
  apply pays_ite
  · refine reaches.bind fun used yes yesFits => ?_
    apply (quiet_expect source .comma _).paid
    intro _
    refine reaches.bind fun last no noFits => ?_
    apply (quiet_expect source .rparen _).paid
    intro _
    exact choice (bound + (spent + (used + last))) (fits.mono (by omega))
      (yesFits.mono (by omega)) (by simpa using noFits.mono (by omega)) fun _ => by omega
  · apply (quiet_expect source .rparen _).paid
    intro _
    refine reaches.bind fun used yes yesFits => ?_
    refine (pays_otherwise source reaches).bind fun last no noFits => ?_
    exact choice (bound + (spent + (used + last))) (fits.mono (by omega))
      (yesFits.mono (by omega)) (fun n member => (noFits n member).mono (by omega))
      fun _ => by omega

theorem reaches_switchCases (fuel : Nat) {c : Cases} (before : Nat) (alike : c.Alike)
    (within : ∀ t ∈ c.pieces,
      t.Within (HasSize source.limits.vectorSize) counted (bound + before)) :
    Pays counted (switchCases source expression fuel c) fun spent =>
      Fits source.limits.vectorSize counted (bound + 1 + (before + spent)) := by
  induction fuel generalizing c before with
  | zero => exact pays_throw
  | succ fuel ih =>
      have added : ∀ {test : Option Tree} {body : Typed} {total : Nat → Nat} (position high : Nat),
          (∀ t ∈ test, t.Within (HasSize source.limits.vectorSize) counted (bound + high)) →
          Fits source.limits.vectorSize counted (bound + high) body → before ≤ high →
          (∀ spent, bound + 1 + (high + spent) ≤ total spent) →
          Pays counted (addCase source c test body position >>= switchCases source expression fuel)
            fun spent => Fits source.limits.vectorSize counted (total spent) := by
        intro test body total position high tests fits more room
        refine (gives_addCase source alike test fits.right position).before ?_
        rintro _ ⟨rfl, alike⟩
        have all := Cases.forall_pieces_add (fun t member =>
          (within t member).mono (Nat.add_le_add_left more bound)) tests fits.within
        exact (ih high alike all).mono fun spent n nFits => nFits.mono (room spent)
      rw [switchCases]
      apply (quiet_eatAll source _ _).paid
      intro _
      apply (quiet_position source).paid
      intro here
      apply (quiet_eatWord source _).paid
      intro _
      apply pays_ite
      · refine reaches.bind fun spent condition fits => ?_
        refine (gives_requireScalar source condition here _).before ?_
        rintro _ rfl
        apply (quiet_expect source .colon _).paid
        intro _
        refine reaches.bind fun used body bodyFits => ?_
        exact added here (before + (spent + used)) (by simpa using fits.within.mono (by omega))
          (bodyFits.mono (by omega)) (by omega) fun _ => by omega
      · apply (quiet_eatWord source _).paid
        intro _
        apply pays_ite
        · apply pays_ite pays_throw
          apply (quiet_expect source .colon _).paid
          intro _
          refine reaches.bind fun used body bodyFits => ?_
          exact added here (before + used) (by simp) (bodyFits.mono (by omega)) (by omega)
            fun _ => by omega
        · apply (quiet_eat source .rbrace).paid
          intro _
          apply pays_ite
          · exact pays_pure (fits_above alike.kind_eq.symm rfl within (by omega))
          · exact (quiet_peek source).paid fun _ => pays_throw

theorem reaches_switch :
    Reaches source.limits.vectorSize counted (bound + 3) (switch source expression) := by
  apply (quiet_expect source .lbrace _).paid
  intro _
  exact (reaches_switchCases source reaches source.allowance 0 Cases.alike_nil
    (by simp [Cases.pieces, Cases.tree, children])).mono fun _ n fits => fits.mono (by omega)

/-! ### Loops -/

theorem raises_loopBody : Raises source.limits.vectorSize counted bound (loopBody expression) :=
  (pays_inLoop reaches).bind fun _ _ fits => pays_pure fits.within

theorem pays_loopStart :
    Pays counted (loopStart source expression) fun spent t =>
      ∀ u ∈ t.toList, u.Within (HasSize source.limits.vectorSize) counted (bound + 1 + spent) := by
  have kept : ∀ {x : Parse Typed}, Reaches source.limits.vectorSize counted (bound + 1) x →
      Pays counted (do return some (← x).tree) fun spent t =>
        ∀ u ∈ t.toList, u.Within (HasSize source.limits.vectorSize) counted (bound + 1 + spent) :=
    fun inner => inner.bind fun _ _ fits => pays_pure (by simpa using fits.within)
  apply (quiet_check source .semicolon).paid
  intro _
  apply pays_ite (pays_pure (by simp))
  apply (quiet_checkWord source _).paid
  intro _
  exact pays_ite (kept (reaches_declaration source reaches false)) (kept (reaches.mono (by omega)))

omit reaches in
theorem pays_optional {x : Parse Tree} {c : Prop} [Decidable c]
    (inner : Raises limit counted bound x) :
    Pays counted (if c then pure none else do return some (← x)) fun spent t =>
      ∀ u ∈ t.toList, u.Within (HasSize limit) counted (bound + spent) :=
  pays_ite (pays_pure (by simp)) (inner.bind fun _ t within => pays_pure (by simpa using within))

theorem pays_loopTest :
    Pays counted (loopTest source expression) fun spent t =>
      ∀ u ∈ t.toList, u.Within (HasSize source.limits.vectorSize) counted (bound + spent) :=
  (quiet_check source .semicolon).paid fun _ =>
    pays_optional (raises_scalarExpression source reaches _)

theorem pays_loopStep :
    Pays counted (loopStep source expression) fun spent t =>
      ∀ u ∈ t.toList, u.Within (HasSize source.limits.vectorSize) counted (bound + spent) := by
  apply (quiet_check source .rparen).paid
  intro _
  apply pays_ite (pays_pure (by simp))
  exact reaches.bind fun _ n fits => pays_pure (by simpa using fits.within)

theorem reaches_forLoop :
    Reaches source.limits.vectorSize counted (bound + 3) (forLoop source expression) := by
  apply (quiet_expect source .lparen _).paid
  intro _
  apply pays_inScope
  refine (pays_loopStart source reaches).bind fun spent first firsts => ?_
  apply (quiet_expect source .semicolon _).paid
  intro _
  refine (pays_loopTest source reaches).bind fun spent₁ test tests => ?_
  apply (quiet_expect source .semicolon _).paid
  intro _
  refine (pays_loopStep source reaches).bind fun spent₂ step steps => ?_
  apply (quiet_expect source .rparen _).paid
  intro _
  refine (raises_loopBody source reaches).bind fun spent₃ body within => ?_
  have sides : ∀ t ∈ first.toList ++ test.toList ++ step.toList ++ [body],
      t.Within (HasSize source.limits.vectorSize) counted
        (bound + 1 + (spent + (spent₁ + (spent₂ + spent₃)))) := by
    simp only [List.mem_append, List.mem_singleton]
    rintro t (((inFirst | inTest) | inStep) | rfl)
    · exact (firsts t inFirst).mono (by omega)
    · exact (tests t inTest).mono (by omega)
    · exact (steps t inStep).mono (by omega)
    · exact within.mono (by omega)
  exact pays_pure (fits_above rfl rfl sides (by omega))

theorem reaches_whileLoop :
    Reaches source.limits.vectorSize counted (bound + 3) (whileLoop source expression) := by
  apply (quiet_expect source .lparen _).paid
  intro _
  refine (raises_scalarExpression source reaches _).bind fun spent test within => ?_
  apply (quiet_expect source .rparen _).paid
  intro _
  refine (raises_loopBody source reaches).bind fun used body bodyWithin => ?_
  have sides : ∀ t ∈ [test, body],
      t.Within (HasSize source.limits.vectorSize) counted (bound + (spent + used)) := by
    simpa using ⟨within.mono (by omega), bodyWithin.mono (by omega)⟩
  exact pays_pure (fits_above rfl rfl sides (by omega))

theorem reaches_repeatLoop (position : Nat) :
    Reaches source.limits.vectorSize counted (bound + 3)
      (repeatLoop source expression position) := by
  refine (pays_inLoop (pays_block source reaches .until)).bind fun spent items fits => ?_
  refine (quiet_eatWord source _).paid fun _ => pays_ite ?_ pays_throw
  apply (quiet_expect source .lparen _).paid
  intro _
  refine (raises_scalarExpression source reaches _).bind fun used stop within => ?_
  apply (quiet_expect source .rparen _).paid
  intro _
  have body : Fits source.limits.vectorSize counted (bound + 2 + spent) (sequence items) :=
    sequence_fits fits (by omega)
  have sides : ∀ t ∈ [(sequence items).tree, stop],
      t.Within (HasSize source.limits.vectorSize) counted (bound + 2 + (spent + used)) := by
    simpa using ⟨body.within.mono (by omega), within.mono (by omega)⟩
  exact pays_pure (fits_above rfl rfl sides (by omega))

/-! ### Ways out -/

theorem reaches_breakExpression (position : Nat) :
    Reaches source.limits.vectorSize counted (bound + 3)
      (breakExpression source expression position) := by
  apply (quiet_requireLoop source position _).paid
  intro _
  apply (quiet_eat source .lbracket).paid
  intro _
  refine pays_ite ?_ (pays_pure (fits_leaf rfl rfl rfl (by omega)))
  refine (raises_scalarExpression source reaches _).bind fun spent value within => ?_
  apply (quiet_expect source .rbracket _).paid
  intro _
  have payload : ∀ t ∈ [value],
      t.Within (HasSize source.limits.vectorSize) counted (bound + spent) := by
    simpa using within
  exact pays_pure (fits_above rfl rfl payload (by omega))

omit reaches in
theorem reaches_continueExpression (position : Nat) :
    Reaches limit counted (bound + 3) (continueExpression source position) :=
  (quiet_requireLoop source position _).paid fun _ =>
    pays_pure (fits_leaf rfl rfl rfl (by omega))

theorem reaches_returnExpression :
    Reaches source.limits.vectorSize counted (bound + 3) (returnExpression source expression) := by
  have empty : Reaches source.limits.vectorSize counted (bound + 3)
      (pure (scalarNode (.returnList []))) := pays_pure (fits_leaf rfl rfl rfl (by omega))
  refine (quiet_eat source .lbracket).paid fun _ => pays_ite ?_ empty
  apply (quiet_eat source .rbracket).paid
  intro _
  apply pays_ite empty
  refine (pays_trees source reaches _ _).bind fun spent items fits => ?_
  exact pays_pure (fits_above rfl rfl (within_trees fits) (by omega))

/-! ### Names -/

theorem pays_bound (close : Sym) :
    Pays counted (bound? source expression close) fun spent t =>
      ∀ u ∈ t.toList, u.Within (HasSize source.limits.vectorSize) counted (bound + spent) :=
  (quiet_check source close).paid fun _ =>
    pays_optional (raises_scalarExpression source reaches _)

theorem reaches_access (b : Binding) (position : Nat) :
    Reaches source.limits.vectorSize counted (bound + 3)
      (access source expression b position) := by
  apply (quiet_check source .lbracket).paid
  intro _
  refine pays_ite (pays_pure (fits_leaf rfl rfl rfl (by omega))) ?_
  refine pays_ite pays_throw ?_
  apply (quiet_advance source).paid
  intro _
  apply (quiet_eat source .rbracket).paid
  intro _
  refine pays_ite (pays_pure (fits_leaf rfl rfl rfl (by omega))) ?_
  refine (pays_bound source reaches .colon).bind fun spent first firsts => ?_
  apply (quiet_eat source .colon).paid
  intro _
  apply pays_ite
  · refine (pays_bound source reaches .rbracket).bind fun used last lasts => ?_
    apply (quiet_expect source .rbracket _).paid
    intro _
    have ends : ∀ t ∈ first.toList ++ last.toList,
        t.Within (HasSize source.limits.vectorSize) counted (bound + (spent + used)) := by
      intro t member
      rcases List.mem_append.mp member with inFirst | inLast
      · exact (firsts t inFirst).mono (by omega)
      · exact (lasts t inLast).mono (by omega)
    exact pays_pure (fits_above rfl rfl ends (by omega))
  · apply (quiet_expect source .rbracket _).paid
    intro _
    cases first with
    | none => exact pays_throw
    | some index => exact pays_pure (fits_above rfl rfl firsts (by omega))

theorem pays_arguments :
    Pays counted (arguments? source expression) fun spent args =>
      ∀ a ∈ args.getD [], Fits source.limits.vectorSize counted (bound + spent) a := by
  apply (quiet_eat source .lparen).paid
  intro _
  refine pays_ite ?_ (pays_pure (by simp))
  apply (quiet_eat source .rparen).paid
  intro _
  apply pays_ite (pays_pure (by simp))
  exact (pays_trees source reaches _ _).bind fun spent args fits => pays_pure fits

theorem reaches_symbolNode (name : String) (symbol : Symbol) (position : Nat) :
    Reaches source.limits.vectorSize counted (bound + 3)
      (symbolNode source expression name symbol position) := by
  cases symbol with
  | function f =>
      refine (pays_arguments source reaches).bind fun spent args fits => ?_
      have made : Gives (call source name f (args.getD []) position) fun n => Right n ∧
          Made (fun _ => True) [] ((args.getD []).map Typed.tree) n.tree :=
        gives_call source name trivial _ position (rights_of_fits fits)
      have node := gives_raised made (within_trees fits)
      exact node.pays.mono fun _ n nFits => nFits.mono (by omega)
  | scalar | vector | string | constant => exact reaches_access source reaches _ position

theorem reaches_identifier (name : String) (position : Nat) :
    Reaches source.limits.vectorSize counted (bound + 3)
      (identifier source expression name position) := by
  apply quiet_get.paid
  intro s
  split
  · exact reaches_access source reaches _ position
  · split
    · exact reaches_symbolNode source reaches name _ position
    · refine pays_ite ((pays_arguments source reaches).bind fun spent args fits => ?_) pays_throw
      cases args with
      | none => exact pays_throw
      | some args =>
          have node := gives_raised (gives_builtin source name args position
            (rights_of_fits fits)) (within_trees fits)
          exact node.pays.mono fun _ n nFits => nFits.mono (by omega)

theorem reaches_word (name : String) (position : Nat) :
    Reaches source.limits.vectorSize counted (bound + 3)
      (word source expression name position) := by
  unfold word
  split
  · exact pays_pure (fits_leaf rfl rfl rfl (by omega))
  · exact pays_pure (fits_leaf rfl rfl rfl (by omega))
  · exact pays_pure (fits_leaf rfl rfl rfl (by omega))
  · exact reaches_ifExpression source reaches position
  · exact reaches_switch source reaches
  · exact reaches_forLoop source reaches
  · exact reaches_whileLoop source reaches
  · exact reaches_repeatLoop source reaches position
  · exact reaches_breakExpression source reaches position
  · exact reaches_continueExpression source position
  · exact reaches_returnExpression source reaches
  · exact pays_throw
  · exact pays_throw
  · exact reaches_identifier source reaches name position

theorem reaches_primary :
    Reaches source.limits.vectorSize counted (bound + 3) (primary source expression) := by
  apply (quiet_position source).paid
  intro here
  apply (quiet_check source .semicolon).paid
  intro _
  apply pays_ite pays_throw
  apply (quiet_advance source).paid
  intro found
  split
  · exact pays_throw
  · exact pays_pure (fits_leaf rfl rfl rfl (by omega))
  · exact pays_pure (fits_leaf rfl rfl rfl (by omega))
  · next name => exact reaches_word source reaches name here
  · refine reaches.bind fun spent inner fits => ?_
    apply (quiet_expect source .rparen _).paid
    intro _
    exact pays_pure (fits.mono (by omega))
  · exact reaches_brace source reaches here
  · exact pays_throw

end

/-! ### Operands -/

/-- What an operand is made of is three levels below it at most. -/
theorem reaches_prefixed {inner : Parse Typed}
    (inners : Reaches source.limits.vectorSize counted bound inner) :
    Reaches source.limits.vectorSize counted (bound + 3) (prefixed source inner) := by
  have operands : Reaches source.limits.vectorSize counted bound
      (chain source inner unaryPrecedence) := reaches_chain source inners unaryPrecedence
  apply (quiet_position source).paid
  intro here
  apply (quiet_peek source).paid
  intro found
  have negation : Reaches source.limits.vectorSize counted (bound + 3) (do
      let _ ← advance source
      let node ← chain source inner unaryPrecedence
      let tree ← requireScalar source node here "operand of 'not'"
      return scalarNode (.apply .not [tree])) := by
    apply (quiet_advance source).paid
    intro _
    refine operands.bind fun spent n fits => ?_
    refine (gives_requireScalar source n here _).before ?_
    rintro _ rfl
    have operand : ∀ t ∈ [n.tree],
        t.Within (HasSize source.limits.vectorSize) counted (bound + spent) := by
      simpa using fits.within
    exact pays_pure (fits_above rfl rfl operand (by omega))
  split
  · apply (quiet_advance source).paid
    intro _
    refine operands.bind fun spent n fits => pays_ite pays_throw ?_
    have operand : ∀ t ∈ [n.tree],
        t.Within (HasSize source.limits.vectorSize) counted (bound + spent) := by
      simpa using fits.within
    exact pays_pure (fits_above fits.right rfl operand (by omega))
  · apply (quiet_advance source).paid
    intro _
    refine operands.bind fun spent n fits => ?_
    exact pays_ite pays_throw (pays_pure (fits.mono (by omega)))
  · exact negation
  · exact negation
  · exact reaches_primary source (reaches_expression source inners)

theorem reaches_operand (levels : Nat) :
    Reaches source.limits.vectorSize counted (3 * levels) (operand source levels) := by
  induction levels with
  | zero => exact (quiet_position source).paid fun _ => pays_throw
  | succ levels ih => exact reaches_prefixed source ih

/-! ### Programs -/

theorem pays_program : Pays counted (program source) fun spent items => ∀ n ∈ items,
    Fits source.limits.vectorSize counted (3 * source.limits.nesting + 1 + spent) n :=
  (pays_statements source (reaches_expression source (reaches_operand source _)) .input
    source.allowance 0 (by simp)).mono fun _ _ fits n member => (fits n member).mono (by omega)

end MathScript.Parse
