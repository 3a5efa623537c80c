import MathScript.Proofs.Programs

/-!
Loops around the parts of a text. The parser counts the loops it is inside of, and every part
leaves the count as it was, however it ends: what stands behind a faulty statement is inside of
the same loops as if the statement were not there. Inside of so many loops, every node that is
read is steered at that level.
-/

namespace MathScript.Parse

open Tree

/-- A part that is read inside of `level` loops, with what is told of its result. -/
def Inside {α : Type} (level : Nat) (x : Parse α) (told : α → Prop) : Prop :=
  ∀ s, s.loopDepth = level → Ends x s (fun a s' => s'.loopDepth = level ∧ told a)
    fun _ s' => s'.loopDepth = level

section

variable {α β : Type} {level : Nat} {told told' : α → Prop}

theorem inside_pure {a : α} (known : told a) : Inside level (pure a) told :=
  fun _ count => ends_pure ⟨count, known⟩

theorem inside_throw {d : Diagnostic} : Inside level (throw d) told :=
  fun _ count => ends_throw count

theorem Inside.bind {x : Parse β} {f : β → Parse α} {known : β → Prop}
    (first : Inside level x known) (rest : ∀ b, known b → Inside level (f b) told) :
    Inside level (x >>= f) told := by
  intro s count
  refine ends_bind ((first s count).mono ?_ fun _ _ => id)
  rintro b s' ⟨count, known⟩
  exact rest b known s' count

theorem inside_ite {c : Prop} [Decidable c] {x y : Parse α} (yes : Inside level x told)
    (no : Inside level y told) : Inside level (if c then x else y) told := by
  split
  · exact yes
  · exact no

theorem Inside.mono {x : Parse α} (inside : Inside level x told) (weaker : ∀ a, told a → told' a) :
    Inside level x told' :=
  fun s count => (inside s count).mono (fun a _ after => ⟨after.1, weaker a after.2⟩)
    fun _ _ => id

theorem Gives.inside {x : Parse α} (gives : Gives x told) : Inside level x told :=
  fun s count => (gives s).mono (fun _ _ after => ⟨after.1.loopDepth.trans count, after.2⟩)
    fun _ _ same => same.loopDepth.trans count

theorem Quiet.inside {x : Parse β} {f : β → Parse α} (quiet : Quiet x)
    (rest : ∀ b, Inside level (f b) told) : Inside level (x >>= f) told :=
  quiet.gives.inside.bind fun b _ => rest b

theorem inside_inScope {x : Parse α} (inner : Inside level x told) :
    Inside level (inScope x) told := by
  intro s count
  have ends := inner { s with scopes := [] :: s.scopes } count
  unfold Ends inScope at *
  cases end_eq : x { s with scopes := [] :: s.scopes } with
  | ok a s' =>
      rw [end_eq] at ends
      exact ends
  | error d s' =>
      rw [end_eq] at ends
      exact ends

/-- The body of a loop is inside of one loop more; the count goes back on a failure too. -/
theorem inside_inLoop {x : Parse α} (inner : Inside (level + 1) x told) :
    Inside level (inLoop x) told := by
  intro s count
  have ends := inner { s with loopDepth := s.loopDepth + 1 } (congrArg (· + 1) count)
  unfold Ends inLoop at *
  cases end_eq : x { s with loopDepth := s.loopDepth + 1 } with
  | ok a s' =>
      rw [end_eq] at ends
      obtain ⟨count', known⟩ := ends
      exact ⟨by simp [count'], known⟩
  | error d s' =>
      rw [end_eq] at ends
      simp only at ends
      simp [ends]

theorem inside_attempt {x : Parse α} (inner : Inside level x told) :
    Inside level (attempt x) fun end_ => ∀ a, end_ = .ok a → told a := by
  intro s count
  refine ends_attempt (inner s count) ?_ ?_
  · rintro a s' ⟨count, known⟩
    refine ⟨count, ?_⟩
    rintro _ ⟨⟩
    exact known
  · intro d s' count
    exact ⟨count, by simp⟩

theorem inside_requireLoop (source : Source) (position : Nat) (keyword : String) :
    Inside level (requireLoop source position keyword) fun _ => 0 < level := by
  rintro s rfl
  change Ends (if s.loopDepth = 0 then fail source position (.outsideLoop keyword) else pure ())
    s _ _
  split
  · exact ends_throw rfl
  · next some => exact ends_pure ⟨rfl, Nat.pos_of_ne_zero some⟩

end

/-! ### Nodes -/

/-- A node with its own kind that may stand inside of `level` loops. -/
structure Placed (level : Nat) (n : Typed) : Prop where
  right : Right n
  steered : n.tree.Steered level

/-- A part that reads a node, inside of however many loops it stands. -/
def Places (x : Parse Typed) : Prop := ∀ level, Inside level x (Placed level)

variable {level : Nat}

theorem placed_node {n : Typed} (right : Right n) (stays : n.tree.exits = false)
    (hands : n.tree.HandsBack) (children : ∀ child ∈ n.tree.children, Steered level child) : Placed level n :=
  ⟨right, .of_children (by simp [stays]) hands children⟩

theorem inside_node {x : Parse Typed} {pieces : List Tree}
    (gives : Gives x fun n => Right n ∧ Made (fun _ => True) [] pieces n.tree)
    (steered : ∀ p ∈ pieces, Steered level p) : Inside level x (Placed level) :=
  gives.inside.mono fun _ told => ⟨told.1, told.2.steered level steered⟩

theorem steered_trees {ns : List Typed} (placed : ∀ n ∈ ns, Placed level n) :
    ∀ t ∈ ns.map Typed.tree, Steered level t := by
  intro t inside
  obtain ⟨n, member, rfl⟩ := List.mem_map.mp inside
  exact (placed n member).steered

theorem rights_of_placed {ns : List Typed} (placed : ∀ n ∈ ns, Placed level n) :
    ∀ n ∈ ns, Right n :=
  fun n member => (placed n member).right

theorem sequence_placed {items : List Typed} (placed : ∀ n ∈ items, Placed level n) :
    Placed level (sequence items) := by
  refine ⟨sequence_right (rights_of_placed placed), ?_⟩
  match items with
  | [] => exact .leaf (by simp [sequence, scalarNode, exits]) trivial rfl
  | [single] => exact (placed single (by simp)).steered
  | first :: second :: rest =>
      exact .of_children (by simp [sequence, exits]) trivial (steered_trees placed)

/-! ### Operators -/

variable (source : Source)

section

variable {operand : Parse Typed} (operands : Places operand)

include operands

theorem places_binary (fuel : Nat) :
    (∀ least, Places (binary source operand fuel least)) ∧
      ∀ least level left, Placed level left →
        Inside level (climb source operand fuel least left) (Placed level) := by
  induction fuel with
  | zero =>
      constructor
      · intro least level
        rw [binary]
        exact inside_throw
      · intro least level left placed
        rw [climb]
        exact inside_throw
  | succ fuel ih =>
      obtain ⟨binaries, climbs⟩ := ih
      constructor
      · intro least level
        rw [binary]
        exact (operands level).bind fun left placed => climbs least level left placed
      · intro least level left placed
        rw [climb]
        apply (quiet_operatorAhead source least).inside
        intro found
        cases found with
        | none => exact inside_pure placed
        | some op =>
            refine (quiet_position source).inside fun here =>
              (quiet_advance source).inside fun _ => ?_
            apply (binaries op.rightPrecedence level).bind
            intro right rightPlaced
            have combined : Inside level (combine source op left right here) (Placed level) :=
              inside_node (gives_combine source op left right here)
                (by simpa using ⟨placed.steered, rightPlaced.steered⟩)
            exact combined.bind fun n nPlaced => climbs least level n nPlaced

theorem places_chain (least : Nat) : Places (chain source operand least) :=
  (places_binary source operands source.allowance).1 least

theorem places_ternary {again : Parse Typed} (agains : Places again) :
    Places (ternary source operand again) := by
  intro level
  apply (quiet_position source).inside
  intro here
  apply (places_chain source operands 1 level).bind
  intro condition placed
  apply (quiet_eat source .question).inside
  intro _
  refine inside_ite ?_ (inside_pure placed)
  apply (gives_requireScalar source condition here "condition").inside.bind
  intro test test_eq
  subst test_eq
  apply (agains level).bind
  intro yes yesPlaced
  apply (quiet_expect source .colon _).inside
  intro _
  apply (agains level).bind
  intro no noPlaced
  refine inside_node (gives_conditional source condition.tree yes (some no) here yesPlaced.right
    (by simpa using noPlaced.right)) ?_
  simpa using ⟨placed.steered, yesPlaced.steered, noPlaced.steered⟩

theorem places_expressions (fuel : Nat) : Places (expressions source operand fuel) := by
  induction fuel with
  | zero =>
      intro level
      exact inside_throw
  | succ fuel ih =>
      intro level
      rw [expressions]
      apply (quiet_position source).inside
      intro here
      apply (places_ternary source operands ih level).bind
      intro left placed
      apply (quiet_peek source).inside
      intro found
      split
      · next op =>
          apply (quiet_advance source).inside
          intro _
          apply (ih level).bind
          intro value valuePlaced
          exact inside_node (gives_assignment source left op value here)
            (by simpa using ⟨placed.steered, valuePlaced.steered⟩)
      · apply (quiet_advance source).inside
        intro _
        apply (places_ternary source operands ih level).bind
        intro right rightPlaced
        exact inside_node (gives_exchange source left right here)
          (by simpa using ⟨placed.steered, rightPlaced.steered⟩)
      · exact inside_pure placed

theorem places_expression : Places (expression source operand) :=
  places_expressions source operands source.allowance

end

/-! ### Lists and declarations -/

section

variable {expression : Parse Typed} (places : Places expression)

theorem inside_commaList {α : Type} {item : Parse α} {told : α → Prop} (close : Sym)
    (context : String) (fuel : Nat) {items : List α} (inner : Inside level item told)
    (before : ∀ a ∈ items, told a) :
    Inside level (commaList source item close context fuel items) fun all => ∀ a ∈ all, told a := by
  induction fuel generalizing items with
  | zero => exact inside_throw
  | succ fuel ih =>
      rw [commaList]
      apply inner.bind
      intro a known
      have longer : ∀ b ∈ a :: items, told b := List.forall_mem_cons.mpr ⟨known, before⟩
      apply (quiet_eat source .comma).inside
      intro _
      apply inside_ite (ih longer)
      apply (quiet_expect source close context).inside
      intro _
      exact inside_pure fun b member => longer b (List.mem_reverse.mp member)

include places

theorem inside_scalarExpression (what : String) :
    Inside level (scalarExpression source expression what) (Steered level) := by
  apply (quiet_position source).inside
  intro here
  apply (places level).bind
  intro n placed
  exact (gives_requireScalar source n here what).inside.mono fun t same => same ▸ placed.steered

theorem inside_scalarList (close : Sym) :
    Inside level (scalarList source expression close) fun ts => ∀ t ∈ ts, Steered level t := by
  apply (quiet_eat source close).inside
  intro _
  apply inside_ite (inside_pure (by simp))
  exact inside_commaList source close _ _ (inside_scalarExpression source places _) (by simp)

theorem inside_declaredLength :
    Inside level (declaredLength source expression) fun _ => True := by
  apply (quiet_eat source .rbracket).inside
  intro _
  apply inside_ite (inside_pure trivial)
  apply (quiet_position source).inside
  intro here
  apply (inside_scalarExpression source places _).bind
  intro size _
  apply (quiet_expect source .rbracket _).inside
  intro _
  exact (quiet_vectorLength source size here).inside fun _ => inside_pure trivial

theorem inside_vectorFill (name : String) (length : Option Nat) :
    Inside level (vectorFill source expression name length)
      fun filled => ∀ t ∈ filled.2, Steered level t := by
  apply (quiet_eat source _).inside
  intro _
  refine inside_ite ?_ (inside_pure (by simp))
  apply (quiet_position source).inside
  intro here
  apply (quiet_eat source .lbrace).inside
  intro _
  apply inside_ite
  · apply (inside_scalarList source places .rbrace).bind
    intro items steered
    exact (quiet_checkCount source items.length name length here).inside fun _ =>
      inside_pure steered
  · apply (quiet_eat source .lbracket).inside
    intro _
    apply inside_ite
    · apply (inside_scalarExpression source places _).bind
      intro item steered
      apply (quiet_expect source .rbracket _).inside
      intro _
      exact inside_pure (by simpa using steered)
    · apply (places level).bind
      intro value placed
      exact inside_ite (inside_pure (by simpa using placed.steered)) inside_throw

theorem inside_vectorDeclaration (name : String) (position : Nat) :
    Inside level (vectorDeclaration source expression name position)
      fun declared => ∀ t ∈ declared.2, Steered level t := by
  apply (inside_declaredLength source places).bind
  intro length _
  apply (inside_vectorFill source places name length).bind
  intro filled steered
  obtain ⟨fill, parts⟩ := filled
  dsimp only
  split
  · exact inside_pure steered
  · exact inside_pure steered
  · exact inside_throw

theorem inside_initialValue (name : String) (constant : Bool) (position : Nat) :
    Inside level (initialValue source expression name constant position)
      fun declared => ∀ t ∈ declared.2, Steered level t := by
  apply (quiet_eat source .lbracket).inside
  intro _
  apply inside_ite
  · exact inside_vectorDeclaration source places name position
  · apply (quiet_eat source _).inside
    intro _
    apply inside_ite
    · apply (quiet_position source).inside
      intro here
      apply (places level).bind
      intro value placed
      split
      · exact inside_pure (by simpa using placed.steered)
      · exact inside_pure (by simpa using placed.steered)
      · exact inside_throw
    · exact inside_ite inside_throw (inside_pure (by simp))

theorem places_declaration (constant : Bool) :
    Places (declaration source expression constant) := by
  intro level
  apply (quiet_advance source).inside
  intro _
  apply (quiet_position source).inside
  intro here
  apply (quiet_advance source).inside
  intro found
  split
  · next name =>
      apply inside_ite inside_throw
      apply (quiet_declaredHere name).inside
      intro _
      apply inside_ite inside_throw
      apply (inside_initialValue source places name constant here).bind
      rintro ⟨shape, parts⟩ steered
      have declared : Inside level (declareLocal name shape.kind !constant) fun _ => True :=
        fun _ count => ⟨count, trivial⟩
      exact declared.bind fun slot _ => inside_pure (placed_node rfl rfl trivial steered)
  · exact inside_throw

/-! ### Statements -/

theorem places_statement : Places (statement source expression) := by
  intro level
  apply (quiet_checkWord source _).inside
  intro _
  apply inside_ite (places_declaration source places false level)
  apply (quiet_eatWord source _).inside
  intro _
  refine inside_ite ?_ (places level)
  apply (quiet_checkWord source _).inside
  intro _
  apply inside_ite (places_declaration source places true level)
  exact (quiet_position source).inside fun _ => inside_throw

theorem inside_statements (stop : Stop) (fuel : Nat) {items : List Typed}
    (before : ∀ n ∈ items, Placed level n) :
    Inside level (statements source expression stop fuel items) fun all =>
      ∀ n ∈ all, Placed level n := by
  have kept : ∀ n ∈ items.reverse, Placed level n :=
    fun n member => before n (List.mem_reverse.mp member)
  induction fuel generalizing items with
  | zero =>
      rw [statements]
      exact (quiet_record source _).inside fun _ => inside_pure kept
  | succ fuel ih =>
      rw [statements]
      apply (quiet_eatAll source _ _).inside
      intro _
      apply (quiet_atStop source stop).inside
      intro _
      apply inside_ite (inside_pure kept)
      apply (inside_attempt (places_statement source places level)).bind
      intro ended placed
      cases ended with
      | error d => exact (quiet_recover source d).inside fun _ => ih before kept
      | ok item =>
          have longer : ∀ n ∈ item :: items, Placed level n :=
            List.forall_mem_cons.mpr ⟨placed item rfl, before⟩
          have keptLonger : ∀ n ∈ (item :: items).reverse, Placed level n :=
            fun n member => longer n (List.mem_reverse.mp member)
          apply (quiet_separated source stop).inside
          intro _
          apply inside_ite (ih longer keptLonger)
          refine (quiet_position source).inside fun _ => (quiet_peek source).inside fun _ => ?_
          exact (quiet_recover source _).inside fun _ => ih longer keptLonger

theorem inside_block (stop : Stop) :
    Inside level (block source expression stop) fun items => ∀ n ∈ items, Placed level n :=
  inside_inScope (inside_statements source places stop source.allowance (by simp))

end

end MathScript.Parse
