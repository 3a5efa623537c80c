import MathScript.Parse.Statement
import MathScript.Proofs.Expressions

/-!
Lists of expressions and the initial values of declarations. Every tree that is read becomes a
piece, but for the tree of a length, which is given up for its number.
-/

namespace MathScript.Parse

open Tree

variable {offers : Grant → Prop} {scopes : List Scope} {input : List Tree} {base : List Slot}
  (source : Source) {expression : Parse Typed}

theorem yields_scalarExpression (reads : Reads offers expression) (what : String) :
    Yields offers scopes input (scalarExpression source expression what) (fun t => input ++ [t])
      fun _ => True := by
  apply (quiet_position source).before
  intro here
  apply (reads scopes input).bind
  intro n _
  exact (gives_requireScalar source n here what).yields.mono (fun _ _ => trivial)
    fun t _ _ same at_ => same ▸ at_

theorem yields_commaList {α : Type} {item : Parse α} {tree : α → Tree} {told : α → Prop}
    (close : Sym) (context : String) (fuel : Nat) {items : List α}
    (item_yields : ∀ input, Yields offers scopes input item (fun a => input ++ [tree a]) told)
    (before : ∀ a ∈ items, told a) :
    Yields offers scopes (input ++ items.reverse.map tree)
      (commaList source item close context fuel items) (fun all => input ++ all.map tree)
      fun all => ∀ a ∈ all, told a := by
  induction fuel generalizing items with
  | zero => exact yields_throw
  | succ fuel ih =>
      rw [commaList]
      apply (item_yields _).bind
      intro a known
      have longer : ∀ b ∈ a :: items, told b := List.forall_mem_cons.mpr ⟨known, before⟩
      -- The items are kept newest first, the pieces in the order of the text.
      have pieces_eq : (input ++ items.reverse.map tree) ++ [tree a] =
          input ++ (a :: items).reverse.map tree := by simp
      rw [pieces_eq]
      apply (quiet_eat source .comma).before
      intro more
      apply yields_ite (ih longer)
      apply (quiet_expect source close context).before
      intro _
      exact yields_pure (fun b inside => longer b (List.mem_reverse.mp inside)) fun _ _ at_ => at_

theorem yields_trees (reads : Reads offers expression) (close : Sym) (context : String) :
    Yields offers scopes input
      (commaList source expression close context source.allowance [])
      (fun all => input ++ all.map Typed.tree) fun all => ∀ n ∈ all, Right n := by
  have listed : Yields offers scopes (input ++ ([] : List Typed).reverse.map Typed.tree)
      (commaList source expression close context source.allowance [])
      (fun all => input ++ all.map Typed.tree) fun all => ∀ n ∈ all, Right n :=
    yields_commaList source close context source.allowance (fun input => reads scopes input)
      (by simp)
  simpa using listed

theorem yields_scalarList (reads : Reads offers expression) (close : Sym) :
    Yields offers scopes input (scalarList source expression close) (fun all => input ++ all)
      fun _ => True := by
  have listed : Yields offers scopes (input ++ ([] : List Tree).reverse.map id)
      (commaList source (scalarExpression source expression "vector element") close
        "to close the list" source.allowance [])
      (fun all => input ++ all.map id) fun all => ∀ t ∈ all, True :=
    yields_commaList source close "to close the list" source.allowance
      (fun _ => yields_scalarExpression source reads "vector element") (by simp)
  apply (quiet_eat source close).before
  intro _
  apply yields_ite
  · exact yields_pure trivial fun _ _ at_ => by simpa using at_
  · exact Yields.mono (by simpa using listed) (fun _ _ => trivial)
      fun all _ _ _ at_ => by simpa using at_

theorem quiet_vectorLength (size : Tree) (position : Nat) :
    Quiet (vectorLength source size position) := by
  unfold vectorLength
  split
  · exact quiet_ite (quiet_fail source _ _)
      (quiet_ite (quiet_pure _) (quiet_fail source _ _))
  · exact quiet_fail source _ _

theorem yields_declaredLength (reads : Reads offers expression) :
    Yields offers scopes input (declaredLength source expression) (fun _ => input)
      fun _ => True := by
  apply (quiet_eat source .rbracket).before
  intro _
  apply yields_ite
  · exact yields_pure trivial fun _ _ at_ => at_
  · apply (quiet_position source).before
    intro here
    apply (yields_scalarExpression source reads "vector size").bind
    intro size _
    apply (quiet_expect source .rbracket _).before
    intro _
    apply (quiet_vectorLength source size here).before
    intro n
    -- The tree of the length is given up: its slots stay taken, and nothing declares them.
    exact yields_pure trivial fun _ _ at_ => at_.fewer (List.sublist_append_left _ _)

theorem quiet_checkCount (count : Nat) (name : String) (length : Option Nat) (position : Nat) :
    Quiet (checkCount source count name length position) := by
  cases length with
  | none => exact quiet_pure ()
  | some n => exact quiet_ite (quiet_fail source _ _) (quiet_pure ())

theorem yields_vectorFill (reads : Reads offers expression) (name : String)
    (length : Option Nat) :
    Yields offers scopes input (vectorFill source expression name length)
      (fun filled => input ++ filled.2) fun _ => True := by
  apply (quiet_eat source _).before
  intro _
  apply yields_ite
  · apply (quiet_position source).before
    intro here
    apply (quiet_eat source .lbrace).before
    intro _
    apply yields_ite
    · apply (yields_scalarList source reads .rbrace).bind
      intro items _
      exact (quiet_checkCount source items.length name length here).before fun _ =>
        yields_pure trivial fun _ _ at_ => at_
    · apply (quiet_eat source .lbracket).before
      intro _
      apply yields_ite
      · apply (yields_scalarExpression source reads _).bind
        intro item _
        apply (quiet_expect source .rbracket _).before
        intro _
        exact yields_pure trivial fun _ _ at_ => at_
      · apply (reads scopes input).bind
        intro value _
        apply yields_ite
        · exact yields_pure trivial fun _ _ at_ => at_
        · exact yields_throw
  · exact yields_pure trivial fun _ _ at_ => by simpa using at_

theorem yields_vectorDeclaration (reads : Reads offers expression) (name : String)
    (position : Nat) :
    Yields offers scopes input (vectorDeclaration source expression name position)
      (fun declared => input ++ declared.2) fun _ => True := by
  apply (yields_declaredLength source reads).bind
  intro length _
  apply (yields_vectorFill source reads name length).bind
  intro filled _
  obtain ⟨fill, parts⟩ := filled
  dsimp only
  split
  · exact yields_pure trivial fun _ _ at_ => at_
  · exact yields_pure trivial fun _ _ at_ => at_
  · exact yields_throw

theorem yields_initialValue (reads : Reads offers expression) (name : String) (constant : Bool)
    (position : Nat) :
    Yields offers scopes input (initialValue source expression name constant position)
      (fun declared => input ++ declared.2) fun _ => True := by
  apply (quiet_eat source .lbracket).before
  intro _
  apply yields_ite
  · exact yields_vectorDeclaration source reads name position
  · apply (quiet_eat source _).before
    intro _
    apply yields_ite
    · apply (quiet_position source).before
      intro here
      apply (reads scopes input).bind
      intro value _
      split
      · exact yields_pure trivial fun _ _ at_ => at_
      · exact yields_pure trivial fun _ _ at_ => at_
      · exact yields_throw
    · apply yields_ite yields_throw
      exact yields_pure trivial fun _ _ at_ => by simpa using at_

end MathScript.Parse
