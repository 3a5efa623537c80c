import MathScript.Proofs.Statements

/-!
The words that steer evaluation, given how an expression inside of them is read. Each reads one
node; what the parts of a loop declare is in scope where the text says so.
-/

namespace MathScript.Parse

open Tree

variable {offers : Grant → Prop} {scopes : List Scope} {input : List Tree} {base : List Slot}
  (source : Source) {expression : Parse Typed}

theorem formed_leaf {t : Tree} (built : ∀ layout live, Built offers layout live t)
    (undeclared : t.declares = []) (leaf : t.parts = []) : Formed offers scopes [] t :=
  formed_of_parts (fun layout _ _ => built layout _) undeclared (by simp [leaf])

theorem reads_null : Reads offers (pure (scalarNode .null)) := fun _ _ =>
  yields_leaf rfl (formed_leaf (fun _ _ => .null) rfl rfl)

/-! ### Braces and choices -/

theorem reads_vector (reads : Reads offers expression) :
    Reads offers (do
      return ⟨.apply .vector (← scalarList source expression .rbrace), .vector⟩) := by
  intro scopes input
  apply (yields_scalarList source reads .rbrace).bind
  intro items _
  exact yields_formed rfl (formed_apply trivial)

theorem calmly_braced (reads : Reads offers expression) (position : Nat) :
    Calmly offers scopes input (do
      let items ← block source expression .brace
      if ← eat source .rbrace then return sequence items
      else fail source position .unclosedBrace) (fun n => input ++ [n.tree]) Right := by
  have alone : Calmly offers scopes [] (do
      let items ← block source expression .brace
      if ← eat source .rbrace then return sequence items
      else fail source position .unclosedBrace) (fun n => [n.tree]) Right := by
    apply (calmly_block source reads .brace).bind
    intro items rights
    refine (quiet_eat source .rbrace).before fun _ => yields_ite ?_ yields_throw
    exact yields_pure (sequence_right rights) fun _ _ at_ => at_
  exact alone.frame input

/-- Behind the opening brace, which is no `const`. -/
theorem calmly_brace (reads : Reads offers expression) (position : Nat) :
    Calmly offers scopes input (brace source expression position)
      (fun n => input ++ [n.tree]) Right := by
  apply (quiet_eat source .rbrace).calmly calm_eat
  intro _
  apply calmly_ite (reads_null scopes input).calmly
  apply (quiet_vectorAhead source).calmly ((idle_vectorAhead source).keeps offers false)
  intro _
  apply calmly_ite
  · exact (reads_vector source reads scopes input).calmly
  · exact calmly_braced source reads position

theorem yields_otherwise (reads : Reads offers expression) :
    Yields offers scopes input (otherwise? source expression)
      (fun no => input ++ (no.map Typed.tree).toList) fun no => ∀ n ∈ no, Right n := by
  have branch : Yields offers scopes input (do return some (← expression))
      (fun no => input ++ (no.map Typed.tree).toList) fun no => ∀ n ∈ no, Right n :=
    (reads scopes input).bind fun n right => yields_pure (by simpa using right) fun _ _ at_ => at_
  have absent : Yields offers scopes input (pure none)
      (fun no => input ++ (no.map Typed.tree).toList) fun no => ∀ n ∈ no, Right n :=
    yields_pure (by simp) fun _ _ at_ => by simpa using at_
  apply (quiet_eatWord source "else").before
  intro _
  apply yields_ite branch
  refine (quiet_check source .semicolon).before fun _ => yields_ite ?_ absent
  refine (quiet_peekSecond source).before fun _ => yields_ite ?_ absent
  exact (quiet_advance source).before fun _ => (quiet_advance source).before fun _ => branch

theorem reads_ifExpression (reads : Reads offers expression) (position : Nat) :
    Reads offers (ifExpression source expression position) := by
  intro scopes input
  apply (quiet_expect source .lparen _).before
  intro _
  apply (quiet_position source).before
  intro here
  apply (reads scopes input).bind
  intro condition _
  apply (gives_requireScalar source condition here "condition").yields.bind
  intro test test_eq
  subst test_eq
  apply (quiet_eat source .comma).before
  intro _
  apply yields_ite
  · apply (reads scopes _).bind
    intro yes yesRight
    apply (quiet_expect source .comma _).before
    intro _
    apply (reads scopes _).bind
    intro no noRight
    apply (quiet_expect source .rparen _).before
    intro _
    exact yields_choice source yesRight noRight
  · apply (quiet_expect source .rparen _).before
    intro _
    apply (reads scopes _).bind
    intro yes yesRight
    apply (yields_otherwise source reads).bind
    intro no noRight
    have node : Yields offers scopes
        (input ++ condition.tree :: yes.tree :: (no.map Typed.tree).toList)
        (conditional source condition.tree yes no position) (fun n => input ++ [n.tree]) Right :=
      yields_node (gives_conditional source condition.tree yes no position yesRight noRight)
    simpa using node

/-! ### Cases -/

namespace Cases

/-- The trees read so far. -/
def pieces (c : Cases) : List Tree := c.tree.tree.children

/-- All bodies are of the kind that is kept, and there is a kind if and only if there is a
body. -/
structure Alike (c : Cases) : Prop where
  cases : ∀ e ∈ c.cases, c.kind = some e.2.kind
  default : ∀ t ∈ c.default, c.kind = some t.kind
  empty : c.kind = none ↔ c.cases = [] ∧ c.default = none

theorem alike_nil : Alike ⟨[], none, none⟩ := ⟨by simp, by simp, by simp⟩

theorem Alike.add {c : Cases} (alike : c.Alike) (test : Option Tree) {body : Typed}
    (right : Right body) (same : c.kind = none ∨ c.kind = some body.kind) :
    (c.add test body).Alike := by
  -- A first body brings its kind; a further one has to be of the kind that is there.
  have bodies : ∀ e ∈ c.cases, some body.kind = some e.2.kind := by
    intro e inside
    rcases same with absent | present
    · rw [(alike.empty.mp absent).1] at inside
      cases inside
    · rw [← present, alike.cases e inside]
  have defaults : ∀ t ∈ c.default, some body.kind = some t.kind := by
    intro t inside
    rcases same with absent | present
    · rw [(alike.empty.mp absent).2] at inside
      cases inside
    · rw [← present, alike.default t inside]
  have own : some body.kind = some body.tree.kind := congrArg some right
  cases test with
  | none => exact ⟨bodies, by simpa [Cases.add] using own, by simp [Cases.add]⟩
  | some t =>
      refine ⟨fun e inside => ?_, defaults, by simp [Cases.add]⟩
      rcases List.mem_cons.mp inside with rfl | old
      · exact own
      · exact bodies e old

theorem Alike.kind_eq {c : Cases} (alike : c.Alike) :
    (Tree.switch c.cases.reverse c.default).kind = c.kind.getD .scalar := by
  rw [Tree.kind]
  -- The tree takes its kind from the first case in the text, the parser from the first body.
  cases newest : c.cases.reverse with
  | cons e rest =>
      have inside : e ∈ c.cases := List.mem_reverse.mp (by simp [newest])
      rw [alike.cases e inside]
      rfl
  | nil =>
      have bare : c.cases = [] := List.reverse_eq_nil_iff.mp newest
      cases default_eq : c.default with
      | some t =>
          rw [alike.default t default_eq]
          rfl
      | none =>
          rw [alike.empty.mpr ⟨bare, default_eq⟩]
          rfl

theorem Alike.body_kind {c : Cases} (alike : c.Alike) {t : Tree} (known : c.kind = some t.kind) :
    t.kind = (Tree.switch c.cases.reverse c.default).kind := by
  rw [alike.kind_eq, known]
  rfl

theorem mem_pieces {c : Cases} {t : Tree} :
    t ∈ c.pieces ↔ (∃ e ∈ c.cases, t = e.1 ∨ t = e.2) ∨ t ∈ c.default := by
  simp [pieces, Cases.tree, children]

/-- What holds of the trees read so far and of a further case holds of all of them. -/
theorem forall_pieces_add {P : Tree → Prop} {c : Cases} {test : Option Tree} {body : Typed}
    (before : ∀ t ∈ c.pieces, P t) (tests : ∀ t ∈ test, P t) (bodies : P body.tree) :
    ∀ t ∈ (c.add test body).pieces, P t := by
  simp only [mem_pieces] at before ⊢
  cases test with
  | none =>
      rintro t (old | new)
      · exact before t (.inl old)
      · obtain rfl : body.tree = t := by simpa [Cases.add] using new
        exact bodies
  | some test =>
      rintro t (⟨e, inside, part⟩ | old)
      · rcases List.mem_cons.mp inside with rfl | earlier
        · rcases part with rfl | rfl
          · exact tests _ rfl
          · exact bodies
        · exact before t (.inl ⟨e, earlier, part⟩)
      · exact before t (.inr old)

theorem Alike.formed {c : Cases} (alike : c.Alike) :
    Formed offers scopes c.pieces c.tree.tree := by
  refine formed_of_parts (fun layout _ pieces => ?_) rfl (List.Sublist.refl _)
  have tests : ∀ e ∈ c.cases.reverse, Built offers layout (slots scopes) e.1 :=
    fun e inside => pieces _ (mem_pieces.mpr (.inl ⟨e, List.mem_reverse.mp inside, .inl rfl⟩))
  have bodies : ∀ e ∈ c.cases.reverse, Built offers layout (slots scopes) e.2 :=
    fun e inside => pieces _ (mem_pieces.mpr (.inl ⟨e, List.mem_reverse.mp inside, .inr rfl⟩))
  have defaults : ∀ t ∈ c.default.toList, Built offers layout (slots scopes) t :=
    fun t inside => pieces t (mem_pieces.mpr (.inr (by simpa using inside)))
  refine .switch tests bodies defaults (fun e inside => ?_) fun t inside => ?_
  · exact alike.body_kind (alike.cases e (List.mem_reverse.mp inside))
  · exact alike.body_kind (alike.default t (by simpa using inside))

/-- A case comes before the default, wherever it was read. -/
theorem pieces_add_case (c : Cases) (test : Tree) (body : Typed) :
    ((c.pieces ++ [test]) ++ [body.tree]).Perm (c.add (some test) body).pieces := by
  have pieces_eq : (c.add (some test) body).pieces =
      c.cases.reverse.flatMap (fun c => [c.1, c.2]) ++
        ([test, body.tree] ++ c.default.toList) := by
    simp [pieces, Cases.add, Cases.tree, Tree.children_switch]
  rw [pieces_eq, List.append_assoc, pieces, Cases.tree, Tree.children_switch, List.append_assoc]
  exact List.perm_append_comm.append_left _

theorem pieces_add_default {c : Cases} (first : c.default = none) (body : Typed) :
    c.pieces ++ [body.tree] = (c.add none body).pieces := by
  simp [pieces, Cases.add, Cases.tree, children, first]

end Cases

theorem gives_addCase {c : Cases} (alike : c.Alike) (test : Option Tree) {body : Typed}
    (right : Right body) (position : Nat) :
    Gives (addCase source c test body position) fun c' => c' = c.add test body ∧ c'.Alike := by
  unfold addCase
  split
  · next first known =>
      split
      · next same =>
          exact gives_pure ⟨rfl, alike.add test right (.inr (by rw [known, same]))⟩
      · exact gives_fail source _ _
  · next absent => exact gives_pure ⟨rfl, alike.add test right (.inl absent)⟩

theorem yields_switchCases (reads : Reads offers expression) (fuel : Nat) {c : Cases}
    (alike : c.Alike) :
    Yields offers scopes (input ++ c.pieces) (switchCases source expression fuel c)
      (fun n => input ++ [n.tree]) Right := by
  induction fuel generalizing c with
  | zero => exact yields_throw
  | succ fuel ih =>
      rw [switchCases]
      apply (quiet_eatAll source _ _).before
      intro _
      apply (quiet_position source).before
      intro here
      apply (quiet_eatWord source _).before
      intro _
      apply yields_ite
      · apply (reads scopes _).bind
        intro condition _
        apply (gives_requireScalar source condition here _).yields.bind
        intro test test_eq
        subst test_eq
        apply (quiet_expect source .colon _).before
        intro _
        apply (reads scopes _).bind
        intro body right
        have added := gives_addCase source alike (some condition.tree) right here
        refine (added.yields.mono (fun _ => id) ?_).bind fun c' told => ih told.2
        rintro c' base s ⟨rfl, -⟩ at_
        -- The default may have been read before this case, but stands last in the tree.
        have order := (Cases.pieces_add_case c condition.tree body).append_left input
        exact at_.perm (by simpa using order)
      · apply (quiet_eatWord source _).before
        intro _
        apply yields_ite
        · by_cases first : c.default = none
          · simp only [first, Option.isSome_none, Bool.false_eq_true, if_false]
            apply (quiet_expect source .colon _).before
            intro _
            apply (reads scopes _).bind
            intro body right
            have added := gives_addCase source alike none right here
            refine (added.yields.mono (fun _ => id) ?_).bind fun c' told => ih told.2
            rintro c' base s ⟨rfl, -⟩ at_
            rwa [List.append_assoc, Cases.pieces_add_default first body] at at_
          · have twice : c.default.isSome = true := Option.isSome_iff_ne_none.mpr first
            simp only [twice, if_true]
            exact yields_throw
        · apply (quiet_eat source .rbrace).before
          intro _
          apply yields_ite
          · exact yields_formed alike.kind_eq.symm alike.formed
          · exact (quiet_peek source).before fun _ => yields_throw

theorem reads_switch (reads : Reads offers expression) :
    Reads offers (switch source expression) := by
  intro scopes input
  apply (quiet_expect source .lbrace _).before
  intro _
  have listed : Yields offers scopes (input ++ Cases.pieces ⟨[], none, none⟩)
      (switchCases source expression source.allowance ⟨[], none, none⟩)
      (fun n => input ++ [n.tree]) Right :=
    yields_switchCases source reads source.allowance Cases.alike_nil
  simpa [Cases.pieces, Cases.tree, children] using listed

end MathScript.Parse
