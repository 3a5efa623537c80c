import MathScript.Proofs.Control

/-!
Loops and the ways out of them. The first part of a `for` is read into a scope that the other
parts and the body are read in; what a body yields is not asked for.
-/

namespace MathScript.Parse

open Tree

variable {offers : Grant → Prop} {scopes : List Scope} {input : List Tree} {base : List Slot}
  (source : Source) {expression : Parse Typed}

/-- The count of open loops does not matter to what is read. -/
theorem At.loops {pieces : List Tree} {s : State} (at_ : At offers scopes base pieces s)
    (depth : Nat) : At offers scopes base pieces { s with loopDepth := depth } := by
  obtain ⟨layout, grown, laid, kept⟩ := at_
  exact ⟨layout, grown, { laid with }, kept⟩

section

variable {α : Type} {x : Parse α} {pieces : α → List Tree} {told : α → Prop}

theorem ends_inLoop {s : State} (ends : Ends x { s with loopDepth := s.loopDepth + 1 }
      (fun a s' => told a ∧ At offers scopes base (pieces a) s')
      fun _ s' => At offers scopes base [] s') :
    Ends (inLoop x) s (fun a s' => told a ∧ At offers scopes base (pieces a) s')
      fun _ s' => At offers scopes base [] s' := by
  unfold Ends inLoop at *
  cases end_eq : x { s with loopDepth := s.loopDepth + 1 } with
  | ok a s' =>
      rw [end_eq] at ends
      exact ⟨ends.1, ends.2.loops _⟩
  | error d s' =>
      rw [end_eq] at ends
      exact ends.loops _

theorem yields_inLoop (yields : Yields offers scopes input x pieces told) :
    Yields offers scopes input (inLoop x) pieces told :=
  fun base _ at_ => ends_inLoop (yields base _ (at_.loops _))

theorem calmly_inLoop (calmly : Calmly offers scopes input x pieces told) :
    Calmly offers scopes input (inLoop x) pieces told :=
  fun base _ at_ calm => ends_inLoop (calmly base _ (at_.loops _) calm)

end

theorem yields_loopBody (reads : Reads offers expression) :
    Yields offers scopes input (loopBody expression) (fun t => input ++ [t]) fun _ => True := by
  apply (yields_inLoop (reads scopes input)).bind
  intro n _
  exact yields_pure trivial fun _ _ at_ => at_

theorem reads_whileLoop (reads : Reads offers expression) :
    Reads offers (whileLoop source expression) := by
  intro scopes input
  apply (quiet_expect source .lparen _).before
  intro _
  apply (yields_scalarExpression source reads _).bind
  intro test _
  apply (quiet_expect source .rparen _).before
  intro _
  apply (yields_loopBody reads).bind
  intro body _
  have formed : Formed offers scopes [test, body] (.whileLoop test body) :=
    formed_of_parts (fun _ _ pieces => .whileLoop (pieces test (by simp)) (pieces body (by simp)))
      rfl (List.Sublist.refl _)
  rw [List.append_assoc]
  exact yields_formed rfl formed

/-- Behind the word `repeat`, which is no `const`. -/
theorem calmly_repeatLoop (reads : Reads offers expression) (position : Nat) :
    Calmly offers scopes input (repeatLoop source expression position)
      (fun n => input ++ [n.tree]) Right := by
  have alone : Calmly offers scopes [] (repeatLoop source expression position)
      (fun n => [n.tree]) Right := by
    apply (calmly_inLoop (calmly_block source reads .until)).bind
    intro items _
    refine (quiet_eatWord source _).before fun _ => yields_ite ?_ yields_throw
    apply (quiet_expect source .lparen _).before
    intro _
    apply (yields_scalarExpression source reads _).bind
    intro stop _
    apply (quiet_expect source .rparen _).before
    intro _
    have formed : Formed offers scopes [(sequence items).tree, stop]
        (.repeatLoop (sequence items).tree stop) :=
      formed_of_parts (fun _ _ pieces => .repeatLoop (pieces _ (by simp)) (pieces stop (by simp)))
        rfl (List.Sublist.refl _)
    have node : Yields offers scopes ([] ++ [(sequence items).tree, stop])
        (pure (scalarNode (.repeatLoop (sequence items).tree stop))) (fun n => [] ++ [n.tree])
        Right :=
      yields_formed rfl formed
    exact node
  exact alone.frame input

/-! ### The `for` loop -/

theorem ends_loopStart (reads : Reads offers expression) {s : State}
    (at_ : At offers scopes base [] s) (calm : Calm offers s) :
    Ends (loopStart source expression) s
      (fun first s' => Listing offers scopes base first.toList s')
      fun _ s' => At offers scopes base [] s' := by
  have kept : ∀ {x : Parse Typed} {s : State},
      Ends x s (fun n s' => Right n ∧ Listing offers scopes base [n.tree] s')
        (fun _ s' => At offers scopes base [] s') →
      Ends (do return some (← x).tree) s
        (fun first s' => Listing offers scopes base first.toList s')
        fun _ s' => At offers scopes base [] s' :=
    fun ends => ends_bind (ends.mono (fun n s' after => ends_pure after.2) fun _ _ after => after)
  apply at_.before (quiet_check source .semicolon) (idle_check source .semicolon s)
  intro semicolon s₁ looked at₁
  split
  · exact ends_pure at₁.empty
  · apply at₁.before (quiet_checkWord source _) (ends_checkWord source _ s₁)
    rintro plain s₂ ⟨further, head⟩ at₂
    split
    · next var =>
        have calm₂ := further.promised (looked.promised calm)
        exact kept (ends_declaration source reads at₂ (calm₂.names (head var)))
    · exact kept ((reads scopes [] base s₂ at₂).mono
        (fun _ _ after => ⟨after.1, At.single after.2⟩) fun _ _ after => after)

theorem yields_optional {x : Parse Tree} {c : Prop} [Decidable c]
    (yields : Yields offers scopes input x (fun t => input ++ [t]) fun _ => True) :
    Yields offers scopes input (if c then pure none else do return some (← x))
      (fun t => input ++ t.toList) fun _ => True := by
  refine yields_ite ?_ (yields.bind fun t _ => ?_)
  · exact yields_pure trivial fun _ _ at_ => by simpa using at_
  · exact yields_pure trivial fun _ _ at_ => at_

theorem yields_loopTest (reads : Reads offers expression) :
    Yields offers scopes input (loopTest source expression) (fun t => input ++ t.toList)
      fun _ => True :=
  (quiet_check source .semicolon).before fun _ =>
    yields_optional (yields_scalarExpression source reads _)

theorem yields_loopStep (reads : Reads offers expression) :
    Yields offers scopes input (loopStep source expression) (fun t => input ++ t.toList)
      fun _ => True := by
  apply (quiet_check source .rparen).before
  intro _
  apply yields_ite
  · exact yields_pure trivial fun _ _ at_ => by simpa using at_
  · exact (reads scopes input).bind fun n _ => yields_pure trivial fun _ _ at_ => at_

theorem yields_forRest (reads : Reads offers expression) (first : Option Tree) :
    Yields offers scopes [] (forRest source expression first)
      (fun n => n.tree.children.drop first.toList.length)
      fun n => ∃ test step body, n = scalarNode (.forLoop first test step body) := by
  apply (quiet_expect source .semicolon _).before
  intro _
  apply (yields_loopTest source reads).bind
  intro test _
  apply (quiet_expect source .semicolon _).before
  intro _
  apply (yields_loopStep source reads).bind
  intro step _
  apply (quiet_expect source .rparen _).before
  intro _
  apply (yields_loopBody reads).bind
  intro body _
  apply yields_pure ⟨test, step, body, rfl⟩
  intro _ _ at_
  simpa [scalarNode, children] using at_

/-- The other parts are built with the slot in use that the first part declares. -/
theorem ends_forRest (reads : Reads offers expression) {first : Option Tree} {s : State}
    (listing : Listing offers ([] :: scopes) base first.toList s) :
    Ends (forRest source expression first) s
      (fun n s' => Right n ∧ Enclosed offers scopes base [n.tree] s')
      fun _ s' => Inner offers ([] :: scopes) base s' := by
  obtain ⟨layout, grown, laid, outer, inner, built, spread⟩ := listing
  have here : At offers s.scopes layout [] s :=
    ⟨layout, List.prefix_rfl, laid, rfl, by simp, Spread.nil⟩
  have firsts : ∀ t ∈ first.toList, Built offers layout (slots scopes) t := by
    intro t inside
    have alone : first.toList = [] ++ t :: [] := by
      rw [Option.mem_toList.mp inside]
      rfl
    simpa [slots] using built [] t [] alone
  apply (yields_forRest source reads first layout s here).mono
  · rintro n s' ⟨⟨test, step, body, rfl⟩, layout', grown', laid', scopes_eq, built', spread'⟩
    -- The first part has its pieces already; the others are the children behind it.
    have later_eq : (scalarNode (.forLoop first test step body)).tree.children.drop
        first.toList.length = test.toList ++ step.toList ++ [body] := by
      simp [scalarNode, children]
    dsimp only at built' spread'
    rw [later_eq] at built' spread'
    have later : ∀ t ∈ test.toList ++ step.toList ++ [body],
        Built offers layout' (first.toList.flatMap declares ++ slots scopes) t :=
      fun t inside => (built' t inside).mono (fun _ => id) List.prefix_rfl inner
    refine ⟨rfl, layout', grown.trans grown', laid', by rw [scopes_eq, outer]; rfl, ?_, ?_⟩
    · intro t inside
      obtain rfl : t = .forLoop first test step body := by simpa [scalarNode] using inside
      refine .forLoop (fun t inside => ?_) (fun t inside => ?_) (fun t inside => ?_) ?_
      · exact (firsts t inside).mono (fun _ => id) grown' (List.Subset.refl _)
      · exact later t (by simp_all)
      · exact later t (by simp_all)
      · exact later body (by simp)
    · have all := spread.append spread' grown.length_le grown'.length_le
      have parts_eq : (Tree.forLoop first test step body).parts =
          first.toList ++ (test.toList ++ step.toList ++ [body]) := by
        simp [Tree.parts, children]
      exact all.node rfl (parts_eq ▸ List.Sublist.refl _)
  · rintro d s' ⟨layout', grown', laid', scopes_eq, -⟩
    exact ⟨layout', grown.trans grown', laid', by rw [scopes_eq, outer]⟩

theorem reads_forLoop (reads : Reads offers expression) :
    Reads offers (forLoop source expression) := by
  apply reads_of_base
  intro scopes
  apply yields_expect
  apply calmly_inScope
  intro base s at_ calm
  refine ends_bind ((ends_loopStart source reads at_ calm).mono ?_ ?_)
  · intro first s' listing
    exact ends_forRest source reads listing
  · intro d s' failed
    exact failed.empty.inner

/-! ### Ways out -/

theorem quiet_requireLoop (position : Nat) (keyword : String) :
    Quiet (requireLoop source position keyword) :=
  quiet_get.bind fun _ => quiet_ite (quiet_fail source _ _) (quiet_pure ())

theorem reads_breakExpression (reads : Reads offers expression) (position : Nat) :
    Reads offers (breakExpression source expression position) := by
  intro scopes input
  apply (quiet_requireLoop source _ _).before
  intro _
  apply (quiet_eat source .lbracket).before
  intro _
  apply yields_ite
  · apply (yields_scalarExpression source reads _).bind
    intro value _
    apply (quiet_expect source .rbracket _).before
    intro _
    have formed : Formed offers scopes [value] (.breakLoop (some value)) :=
      formed_of_parts (fun _ _ pieces => .breakLoop (by simpa using pieces)) rfl
        (List.Sublist.refl _)
    exact yields_formed rfl formed
  · exact yields_leaf rfl (formed_leaf (fun _ _ => .breakLoop (by simp)) rfl rfl)

theorem reads_continueExpression (position : Nat) :
    Reads offers (continueExpression source position) := by
  intro scopes input
  apply (quiet_requireLoop source _ _).before
  intro _
  exact yields_leaf rfl (formed_leaf (fun _ _ => .continueLoop) rfl rfl)

theorem reads_returnExpression (reads : Reads offers expression) :
    Reads offers (returnExpression source expression) := by
  have empty : Reads offers (pure (scalarNode (.returnList []))) := fun _ _ =>
    yields_leaf rfl (formed_leaf (fun _ _ => .returnList (by simp)) rfl rfl)
  intro scopes input
  refine (quiet_eat source .lbracket).before fun _ => yields_ite ?_ (empty scopes input)
  apply (quiet_eat source .rbracket).before
  intro _
  apply yields_ite (empty scopes input)
  apply (yields_trees source reads .rbracket _).bind
  intro items _
  have formed : Formed offers scopes (items.map Typed.tree) (.returnList (items.map Typed.tree)) :=
    formed_of_parts (fun _ _ pieces => .returnList pieces) rfl (List.Sublist.refl _)
  exact yields_formed rfl formed

end MathScript.Parse
