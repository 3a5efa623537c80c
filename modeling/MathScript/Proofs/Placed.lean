import MathScript.Proofs.History
import MathScript.Proofs.Inside

/-!
Breaks and continues where the parser lets them stand. A loop opens for its body only: what is
read for its condition, its first part and its step is where the loop itself is. A break or a
continue is refused outside of all loops, so whatever is read as a program is steered with no loop
around it, and so is what folding makes of it.
-/

namespace MathScript

namespace Parse

open Tree

variable {level : Nat} (source : Source)

section

variable {expression : Parse Typed} (places : Places expression)

/-! ### Braces and choices -/

theorem placed_null : Placed level (scalarNode .null) :=
  placed_node rfl rfl trivial (by simp [scalarNode, children])

include places

theorem places_brace (position : Nat) : Places (brace source expression position) := by
  intro level
  apply (quiet_eat source .rbrace).inside
  intro _
  apply inside_ite (inside_pure placed_null)
  apply (quiet_vectorAhead source).inside
  intro _
  apply inside_ite
  · apply (inside_scalarList source places .rbrace).bind
    intro items steered
    exact inside_pure (placed_node rfl rfl trivial steered)
  · apply (inside_block source places .brace).bind
    intro items placed
    apply (quiet_eat source .rbrace).inside
    intro _
    exact inside_ite (inside_pure (sequence_placed placed)) inside_throw

theorem inside_otherwise :
    Inside level (otherwise? source expression) fun no => ∀ n ∈ no, Placed level n := by
  have branch : Inside level (do return some (← expression)) fun no => ∀ n ∈ no, Placed level n :=
    (places level).bind fun n placed => inside_pure (by simpa using placed)
  have absent : Inside level (pure none) fun no : Option Typed => ∀ n ∈ no, Placed level n :=
    inside_pure (by simp)
  apply (quiet_eatWord source "else").inside
  intro _
  apply inside_ite branch
  refine (quiet_check source .semicolon).inside fun _ => inside_ite ?_ absent
  refine (quiet_peekSecond source).inside fun _ => inside_ite ?_ absent
  exact (quiet_advance source).inside fun _ => (quiet_advance source).inside fun _ => branch

theorem places_ifExpression (position : Nat) :
    Places (ifExpression source expression position) := by
  intro level
  have choice : ∀ (condition yes : Typed) (no : Option Typed), Placed level condition →
      Placed level yes → (∀ n ∈ no, Placed level n) →
      Inside level (conditional source condition.tree yes no position) (Placed level) := by
    intro condition yes no placed yesPlaced noPlaced
    refine inside_node (gives_conditional source condition.tree yes no position yesPlaced.right
      fun n member => (noPlaced n member).right) ?_
    refine List.forall_mem_cons.mpr ⟨placed.steered, List.forall_mem_cons.mpr
      ⟨yesPlaced.steered, fun t member => ?_⟩⟩
    obtain ⟨n, found, rfl⟩ : ∃ n, no = some n ∧ n.tree = t := by simpa using member
    exact (noPlaced n found).steered
  apply (quiet_expect source .lparen _).inside
  intro _
  apply (quiet_position source).inside
  intro here
  apply (places level).bind
  intro condition placed
  apply (gives_requireScalar source condition here "condition").inside.bind
  intro test test_eq
  subst test_eq
  apply (quiet_eat source .comma).inside
  intro _
  apply inside_ite
  · apply (places level).bind
    intro yes yesPlaced
    apply (quiet_expect source .comma _).inside
    intro _
    apply (places level).bind
    intro no noPlaced
    apply (quiet_expect source .rparen _).inside
    intro _
    exact choice condition yes (some no) placed yesPlaced (by simpa using noPlaced)
  · apply (quiet_expect source .rparen _).inside
    intro _
    apply (places level).bind
    intro yes yesPlaced
    apply (inside_otherwise source places).bind
    intro no noPlaced
    exact choice condition yes no placed yesPlaced noPlaced

theorem inside_switchCases (fuel : Nat) {c : Cases} (alike : c.Alike)
    (steered : ∀ t ∈ c.pieces, Steered level t) :
    Inside level (switchCases source expression fuel c) (Placed level) := by
  induction fuel generalizing c with
  | zero => exact inside_throw
  | succ fuel ih =>
      have added : ∀ (test : Option Tree) (body : Typed) (position : Nat),
          (∀ t ∈ test, Steered level t) → Placed level body →
          Inside level (addCase source c test body position >>= switchCases source expression fuel)
            (Placed level) := by
        intro test body position tests placed
        apply (gives_addCase source alike test placed.right position).inside.bind
        rintro _ ⟨rfl, alike⟩
        exact ih alike (Cases.forall_pieces_add steered tests placed.steered)
      rw [switchCases]
      apply (quiet_eatAll source _ _).inside
      intro _
      apply (quiet_position source).inside
      intro here
      apply (quiet_eatWord source _).inside
      intro _
      apply inside_ite
      · apply (places level).bind
        intro condition placed
        apply (gives_requireScalar source condition here _).inside.bind
        intro test test_eq
        subst test_eq
        apply (quiet_expect source .colon _).inside
        intro _
        apply (places level).bind
        intro body bodyPlaced
        exact added (some condition.tree) body here (by simpa using placed.steered) bodyPlaced
      · apply (quiet_eatWord source _).inside
        intro _
        apply inside_ite
        · apply inside_ite inside_throw
          apply (quiet_expect source .colon _).inside
          intro _
          apply (places level).bind
          intro body bodyPlaced
          exact added none body here (by simp) bodyPlaced
        · apply (quiet_eat source .rbrace).inside
          intro _
          apply inside_ite
          · exact inside_pure (placed_node alike.kind_eq.symm rfl trivial steered)
          · exact (quiet_peek source).inside fun _ => inside_throw

theorem places_switch : Places (switch source expression) := by
  intro level
  apply (quiet_expect source .lbrace _).inside
  intro _
  exact inside_switchCases source places source.allowance Cases.alike_nil
    (by simp [Cases.pieces, Cases.tree, children])

/-! ### Loops -/

omit places in
theorem inside_optional {x : Parse Tree} {c : Prop} [Decidable c]
    (inner : Inside level x (Steered level)) :
    Inside level (if c then pure none else do return some (← x)) fun t =>
      ∀ u ∈ t.toList, Steered level u :=
  inside_ite (inside_pure (by simp)) (inner.bind fun t steered =>
    inside_pure (by simpa using steered))

/-- The one part of a loop that is read inside of it. -/
theorem inside_loopBody : Inside level (loopBody expression) (Steered (level + 1)) :=
  (inside_inLoop (places (level + 1))).bind fun _ placed => inside_pure placed.steered

theorem inside_loopStart :
    Inside level (loopStart source expression) fun t => ∀ u ∈ t.toList, Steered level u := by
  have kept : ∀ {x : Parse Typed}, Places x →
      Inside level (do return some (← x).tree) fun t => ∀ u ∈ t.toList, Steered level u :=
    fun inner => (inner level).bind fun _ placed => inside_pure (by simpa using placed.steered)
  apply (quiet_check source .semicolon).inside
  intro _
  apply inside_ite (inside_pure (by simp))
  apply (quiet_checkWord source _).inside
  intro _
  exact inside_ite (kept (places_declaration source places false)) (kept places)

theorem inside_loopTest :
    Inside level (loopTest source expression) fun t => ∀ u ∈ t.toList, Steered level u :=
  (quiet_check source .semicolon).inside fun _ =>
    inside_optional (inside_scalarExpression source places _)

theorem inside_loopStep :
    Inside level (loopStep source expression) fun t => ∀ u ∈ t.toList, Steered level u := by
  apply (quiet_check source .rparen).inside
  intro _
  apply inside_ite (inside_pure (by simp))
  exact (places level).bind fun n placed => inside_pure (by simpa using placed.steered)

theorem inside_forRest {first : Option Tree} (firsts : ∀ t ∈ first.toList, Steered level t) :
    Inside level (forRest source expression first) (Placed level) := by
  apply (quiet_expect source .semicolon _).inside
  intro _
  apply (inside_loopTest source places).bind
  intro test tests
  apply (quiet_expect source .semicolon _).inside
  intro _
  apply (inside_loopStep source places).bind
  intro step steps
  apply (quiet_expect source .rparen _).inside
  intro _
  apply (inside_loopBody places).bind
  intro body steered
  refine inside_pure ⟨rfl, .node (by simp [scalarNode, exits]) trivial ?_ ?_⟩
  · intro t member
    simp only [scalarNode, heads, List.mem_append] at member
    rcases member with (inFirst | inTest) | inStep
    · exact firsts t inFirst
    · exact tests t inTest
    · exact steps t inStep
  · simpa [scalarNode, body?] using steered

theorem places_forLoop : Places (forLoop source expression) := by
  intro level
  apply (quiet_expect source .lparen _).inside
  intro _
  apply inside_inScope
  exact (inside_loopStart source places).bind fun first firsts =>
    inside_forRest source places firsts

theorem places_whileLoop : Places (whileLoop source expression) := by
  intro level
  apply (quiet_expect source .lparen _).inside
  intro _
  apply (inside_scalarExpression source places _).bind
  intro test steered
  apply (quiet_expect source .rparen _).inside
  intro _
  apply (inside_loopBody places).bind
  intro body inner
  exact inside_pure ⟨rfl, .node (by simp [scalarNode, exits]) trivial
    (by simpa [scalarNode, heads] using steered) (by simpa [scalarNode, body?] using inner)⟩

theorem places_repeatLoop (position : Nat) : Places (repeatLoop source expression position) := by
  intro level
  apply (inside_inLoop (inside_block source places .until)).bind
  intro items placed
  refine (quiet_eatWord source _).inside fun _ => inside_ite ?_ inside_throw
  apply (quiet_expect source .lparen _).inside
  intro _
  apply (inside_scalarExpression source places _).bind
  intro stop steered
  apply (quiet_expect source .rparen _).inside
  intro _
  exact inside_pure ⟨rfl, .node (by simp [scalarNode, exits]) trivial
    (by simpa [scalarNode, heads] using steered)
    (by simpa [scalarNode, body?] using (sequence_placed placed).steered)⟩

/-! ### Ways out -/

theorem places_breakExpression (position : Nat) :
    Places (breakExpression source expression position) := by
  intro level
  apply (inside_requireLoop source position _).bind
  intro _ inLoop
  apply (quiet_eat source .lbracket).inside
  intro _
  apply inside_ite
  · apply (inside_scalarExpression source places _).bind
    intro value steered
    apply (quiet_expect source .rbracket _).inside
    intro _
    exact inside_pure ⟨rfl, .of_children (fun _ => inLoop) trivial
      (by simpa [scalarNode, children] using steered)⟩
  · exact inside_pure ⟨rfl, .leaf (fun _ => inLoop) trivial rfl⟩

omit places in
theorem places_continueExpression (position : Nat) :
    Places (continueExpression source position) := by
  intro level
  apply (inside_requireLoop source position _).bind
  intro _ inLoop
  exact inside_pure ⟨rfl, .leaf (fun _ => inLoop) trivial rfl⟩

theorem places_returnExpression : Places (returnExpression source expression) := by
  intro level
  have empty : Inside level (pure (scalarNode (.returnList []))) (Placed level) :=
    inside_pure (placed_node rfl rfl trivial (by simp [scalarNode, children]))
  refine (quiet_eat source .lbracket).inside fun _ => inside_ite ?_ empty
  apply (quiet_eat source .rbracket).inside
  intro _
  apply inside_ite empty
  apply (inside_commaList source _ _ _ (places level) (by simp)).bind
  intro items placed
  exact inside_pure (placed_node rfl rfl trivial (steered_trees placed))

/-! ### Names -/

theorem inside_bound (close : Sym) :
    Inside level (bound? source expression close) fun t => ∀ u ∈ t.toList, Steered level u :=
  (quiet_check source close).inside fun _ =>
    inside_optional (inside_scalarExpression source places _)

theorem places_access (b : Binding) (position : Nat) :
    Places (access source expression b position) := by
  intro level
  apply (quiet_check source .lbracket).inside
  intro _
  refine inside_ite (inside_pure (placed_node rfl rfl trivial (by simp [children]))) ?_
  by_cases scalar : b.kind = .scalar
  · simp only [scalar, if_true]
    exact inside_throw
  · simp only [scalar, if_false]
    apply (quiet_advance source).inside
    intro _
    apply (quiet_eat source .rbracket).inside
    intro _
    refine inside_ite (inside_pure (placed_node rfl rfl trivial (by simp [scalarNode, children]))) ?_
    apply (inside_bound source places .colon).bind
    intro first firsts
    apply (quiet_eat source .colon).inside
    intro _
    apply inside_ite
    · apply (inside_bound source places .rbracket).bind
      intro last lasts
      apply (quiet_expect source .rbracket _).inside
      intro _
      refine inside_pure (placed_node rfl rfl trivial fun t member => ?_)
      rcases List.mem_append.mp member with inFirst | inLast
      · exact firsts t inFirst
      · exact lasts t inLast
    · apply (quiet_expect source .rbracket _).inside
      intro _
      cases first with
      | none => exact inside_throw
      | some index => exact inside_pure (placed_node rfl rfl trivial firsts)

theorem inside_arguments :
    Inside level (arguments? source expression) fun args => ∀ a ∈ args.getD [], Placed level a := by
  apply (quiet_eat source .lparen).inside
  intro _
  refine inside_ite ?_ (inside_pure (by simp))
  apply (quiet_eat source .rparen).inside
  intro _
  apply inside_ite (inside_pure (by simp))
  apply (inside_commaList source _ _ _ (places level) (by simp)).bind
  intro args placed
  exact inside_pure placed

theorem places_symbolNode (name : String) (symbol : Symbol) (position : Nat) :
    Places (symbolNode source expression name symbol position) := by
  cases symbol with
  | function f =>
      intro level
      apply (inside_arguments source places).bind
      intro args placed
      exact inside_node (gives_call source name trivial _ position (rights_of_placed placed))
        (steered_trees placed)
  | scalar | vector | string | constant => exact places_access source places _ position

theorem places_identifier (name : String) (position : Nat) :
    Places (identifier source expression name position) := by
  intro level
  apply quiet_get.inside
  intro s
  split
  · exact places_access source places _ position level
  · split
    · exact places_symbolNode source places name _ position level
    · refine inside_ite ((inside_arguments source places).bind fun args placed => ?_) inside_throw
      cases args with
      | none => exact inside_throw
      | some args =>
          exact inside_node (gives_builtin source name args position (rights_of_placed placed))
            (steered_trees placed)

theorem places_word (name : String) (position : Nat) :
    Places (word source expression name position) := by
  have literal : ∀ x, Places (pure (scalarNode (.number x))) := fun x _ =>
    inside_pure (placed_node rfl rfl trivial (by simp [scalarNode, children]))
  unfold word
  split
  · exact literal 1
  · exact literal 0
  · exact fun _ => inside_pure placed_null
  · exact places_ifExpression source places position
  · exact places_switch source places
  · exact places_forLoop source places
  · exact places_whileLoop source places
  · exact places_repeatLoop source places position
  · exact places_breakExpression source places position
  · exact places_continueExpression source position
  · exact places_returnExpression source places
  · exact fun _ => inside_throw
  · exact fun _ => inside_throw
  · exact places_identifier source places name position

theorem places_primary : Places (primary source expression) := by
  intro level
  apply (quiet_position source).inside
  intro here
  apply (quiet_check source .semicolon).inside
  intro _
  apply inside_ite inside_throw
  apply (quiet_advance source).inside
  intro found
  split
  · exact inside_throw
  · exact inside_pure (placed_node rfl rfl trivial (by simp [scalarNode, children]))
  · exact inside_pure (placed_node rfl rfl trivial (by simp [children]))
  · next name => exact places_word source places name here level
  · apply (places level).bind
    intro inner placed
    apply (quiet_expect source .rparen _).inside
    intro _
    exact inside_pure placed
  · exact places_brace source places here level
  · exact inside_throw

end

/-! ### Whole programs -/

theorem places_prefixed {inner : Parse Typed} (inners : Places inner) :
    Places (prefixed source inner) := by
  intro level
  have operands := places_chain source inners unaryPrecedence level
  apply (quiet_position source).inside
  intro here
  apply (quiet_peek source).inside
  intro found
  have negation : Inside level (do
      let _ ← advance source
      let node ← chain source inner unaryPrecedence
      let tree ← requireScalar source node here "operand of 'not'"
      return scalarNode (.apply .not [tree])) (Placed level) := by
    apply (quiet_advance source).inside
    intro _
    apply operands.bind
    intro n placed
    apply (gives_requireScalar source n here _).inside.bind
    intro tree tree_eq
    subst tree_eq
    exact inside_pure (placed_node rfl rfl trivial (by simpa [scalarNode, children] using placed.steered))
  split
  · apply (quiet_advance source).inside
    intro _
    apply operands.bind
    intro n placed
    refine inside_ite inside_throw (inside_pure (placed_node placed.right rfl trivial ?_))
    simpa [children] using placed.steered
  · apply (quiet_advance source).inside
    intro _
    apply operands.bind
    intro n placed
    exact inside_ite inside_throw (inside_pure placed)
  · exact negation
  · exact negation
  · exact places_primary source (places_expression source inners) level

theorem places_operand (levels : Nat) : Places (operand source levels) := by
  induction levels with
  | zero =>
      intro level
      exact (quiet_position source).inside fun _ => inside_throw
  | succ levels ih => exact places_prefixed source ih

end Parse

open Parse

/-- A program as it was read is steered with no loop around it. -/
theorem Program.Read.steered {p : Program} (read : p.Read) : p.tree.Steered 0 := by
  obtain ⟨table, settings, params, text, parsed⟩ := read
  obtain ⟨source, items, s, rfl, -, -, end_eq, rfl⟩ := parse_ok parsed
  have operands := places_operand source source.limits.nesting
  have none : ∀ n ∈ ([] : List Typed), Placed 0 n := by simp
  have ends := inside_statements source (places_expression source operands) .input
    source.allowance none (Compile.start settings params source.text) rfl
  change Ends (program source) _ _ _ at ends
  exact (sequence_placed (ends.of_ok end_eq).2).steered

/-- Whatever has been compiled is steered with no loop around it. -/
theorem Program.Compiled.steered {offers : Grant → Prop} {arity : Nat} {p : Program}
    (compiled : p.Compiled offers arity) : p.tree.Steered 0 := by
  obtain ⟨⟨q, ⟨folding, tree_eq, -⟩, read, -⟩, -⟩ := compiled
  rw [tree_eq]
  exact read.steered.settle folding

theorem World.Sound.bodies_steered {w : World} (sound : w.Sound) {check : Option Check}
    {limit rounds n : Nat} {p : Program}
    (found : (w.host check limit rounds).body? n = some p) : p.tree.Steered 0 := by
  obtain ⟨f, inside, rfl⟩ := World.body_function found
  exact (sound.functions n f inside).steered

end MathScript
