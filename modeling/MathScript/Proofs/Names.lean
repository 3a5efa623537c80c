import MathScript.Proofs.Loops
import MathScript.Proofs.Offers

/-!
Names and primary expressions. A local is found in a scope, so its slot is in use and has its
kind in the layout; a function is found in the table.
-/

namespace MathScript.Parse

open Tree

variable {offers : Grant → Prop} {scopes : List Scope} {input : List Tree}
  (source : Source) {expression : Parse Typed}

theorem findLocal_mem {name : String} {scopes : List Scope} {l : Local}
    (found : findLocal name scopes = some l) : ∃ scope ∈ scopes, (name, l) ∈ scope := by
  induction scopes with
  | nil => cases found
  | cons scope outer ih =>
      rw [findLocal, Option.or_eq_some_iff] at found
      rcases found with here | ⟨-, further⟩
      · obtain ⟨before, after, rfl, -⟩ := List.lookup_eq_some_iff.mp here
        exact ⟨_, List.mem_cons_self .., by simp⟩
      · obtain ⟨inner, inside, entry⟩ := ih further
        exact ⟨inner, List.mem_cons_of_mem _ inside, entry⟩

theorem known_local {name : String} {l : Local} (found : findLocal name scopes = some l) :
    Known offers scopes ⟨name, .slot l.slot l.kind, l.writable⟩ := by
  intro layout agrees
  -- Any layout the scopes agree with will do, so more slots may have come behind.
  obtain ⟨scope, inside, entry⟩ := findLocal_mem found
  refine ⟨?_, agrees scope inside _ entry⟩
  exact List.mem_map.mpr ⟨_, List.mem_flatten.mpr ⟨scope, inside, entry⟩, rfl⟩

/-! ### Variables -/

theorem Known.load {b : Binding} (known : Known offers scopes b) :
    Formed offers scopes [] (.load b) :=
  formed_of_parts (fun layout agrees _ => .load (known layout agrees)) rfl (List.Sublist.refl _)

theorem Known.size {b : Binding} (known : Known offers scopes b) :
    Formed offers scopes [] (.size b) :=
  formed_of_parts (fun layout agrees _ => .size (known layout agrees)) rfl (List.Sublist.refl _)

theorem Known.element {b : Binding} (known : Known offers scopes b) (indexable : b.kind ≠ .scalar)
    (index : Tree) : Formed offers scopes [index] (.element b index) :=
  formed_of_parts (fun layout agrees pieces =>
    .element (known layout agrees) indexable (pieces index (by simp))) rfl (List.Sublist.refl _)

theorem Known.slice {b : Binding} (known : Known offers scopes b) (indexable : b.kind ≠ .scalar)
    (first last : Option Tree) :
    Formed offers scopes (first.toList ++ last.toList) (.slice b first last) := by
  refine formed_of_parts (fun layout agrees pieces => ?_) rfl (List.Sublist.refl _)
  refine .slice (known layout agrees) indexable (fun t inside => ?_) fun t inside => ?_
  · exact pieces t (List.mem_append_left _ inside)
  · exact pieces t (List.mem_append_right _ inside)

theorem yields_bound (reads : Reads offers expression) (close : Sym) :
    Yields offers scopes input (bound? source expression close) (fun t => input ++ t.toList)
      fun _ => True :=
  (quiet_check source close).before fun _ =>
    yields_optional (yields_scalarExpression source reads _)

theorem yields_access (reads : Reads offers expression) {b : Binding}
    (known : Known offers scopes b) (position : Nat) :
    Yields offers scopes input (access source expression b position) (fun n => input ++ [n.tree])
      Right := by
  apply (quiet_check source .lbracket).before
  intro _
  apply yields_ite
  · exact yields_leaf rfl known.load
  · by_cases scalar : b.kind = .scalar
    · simp only [scalar, if_true]
      exact yields_throw
    · simp only [scalar, if_false]
      apply (quiet_advance source).before
      intro _
      apply (quiet_eat source .rbracket).before
      intro _
      apply yields_ite
      · exact yields_leaf rfl known.size
      · apply (yields_bound source reads .colon).bind
        intro first _
        apply (quiet_eat source .colon).before
        intro _
        apply yields_ite
        · apply (yields_bound source reads .rbracket).bind
          intro last _
          apply (quiet_expect source .rbracket _).before
          intro _
          rw [List.append_assoc]
          exact yields_formed rfl (known.slice scalar first last)
        · apply (quiet_expect source .rbracket _).before
          intro _
          cases first with
          | none => exact yields_throw
          | some index => exact yields_formed rfl (known.element scalar index)

/-! ### Calls and names -/

theorem yields_arguments (reads : Reads offers expression) :
    Yields offers scopes input (arguments? source expression)
      (fun args => input ++ (args.getD []).map Typed.tree)
      fun args => ∀ a ∈ args.getD [], Right a := by
  apply (quiet_eat source .lparen).before
  intro _
  apply yields_ite
  · apply (quiet_eat source .rparen).before
    intro _
    apply yields_ite
    · exact yields_pure (by simp) fun _ _ at_ => by simpa using at_
    · apply (yields_trees source reads .rparen _).bind
      intro args rights
      exact yields_pure rights fun _ _ at_ => at_
  · exact yields_pure (by simp) fun _ _ at_ => by simpa using at_

theorem yields_symbolNode (reads : Reads offers expression) (name : String) {symbol : Symbol}
    (offered : ∀ f, symbol = .function f → offers (.call name f))
    (uses : ∀ place, place? symbol = some place → offers (.use name place))
    (writes : source.table.immutable = false → offers .write) (position : Nat) :
    Yields offers scopes input (symbolNode source expression name symbol position)
      (fun n => input ++ [n.tree]) Right := by
  cases symbol with
  | function f =>
      apply (yields_arguments source reads).bind
      intro args rights
      exact yields_node (gives_call source name (offered f rfl) _ position rights)
  | scalar | vector | string =>
      refine yields_access source reads ?_ position
      exact fun _ _ => ⟨uses _ rfl, fun writable => writes (by simpa using writable)⟩
  | constant x =>
      refine yields_access source reads ?_ position
      exact fun _ _ => rfl

theorem yields_get {α : Type} {f : State → Parse α} {pieces : α → List Tree} {told : α → Prop}
    (rest : ∀ s, s.scopes = scopes → Yields offers scopes input (f s) pieces told) :
    Yields offers scopes input (get >>= f) pieces told := by
  intro base s at_
  obtain ⟨layout, grown, laid, scopes_eq, built, spread⟩ := at_
  exact rest s scopes_eq base s ⟨layout, grown, laid, scopes_eq, built, spread⟩

theorem reads_identifier (reads : Reads offers expression)
    (granted : ∀ g, source.table.Grants g → offers g) (name : String)
    (position : Nat) : Reads offers (identifier source expression name position) := by
  intro scopes input
  apply yields_get
  intro s scopes_eq
  -- A local hides a symbol of the table, and a symbol hides a built-in function.
  split
  · next l found => exact yields_access source reads (known_local (scopes_eq ▸ found)) position
  · split
    · next symbol found =>
        exact yields_symbolNode source reads name
          (fun f same => granted (.call name f) (found.trans (congrArg some same)))
          (fun place same => granted (.use name place) ⟨symbol, found, same⟩) (granted .write)
          position
    · refine yields_ite ((yields_arguments source reads).bind fun args rights => ?_) yields_throw
      cases args with
      | none => exact yields_throw
      | some args => exact yields_node (gives_builtin source name args position rights)

theorem reads_number (x : Float) : Reads offers (pure (scalarNode (.number x))) := fun _ _ =>
  yields_leaf rfl (formed_leaf (fun _ _ => .number x) rfl rfl)

theorem reads_text (s : String) : Reads offers (pure ⟨.text s, .string⟩) := fun _ _ =>
  yields_leaf rfl (formed_leaf (fun _ _ => .text s) rfl rfl)

/-- Behind a word that is no `const`. -/
theorem calmly_word (reads : Reads offers expression)
    (granted : ∀ g, source.table.Grants g → offers g) (name : String) (position : Nat) :
    Calmly offers scopes input (word source expression name position) (fun n => input ++ [n.tree])
      Right := by
  unfold word
  split
  · exact (reads_number 1 scopes input).calmly
  · exact (reads_number 0 scopes input).calmly
  · exact (reads_null scopes input).calmly
  · exact (reads_ifExpression source reads position scopes input).calmly
  · exact (reads_switch source reads scopes input).calmly
  · exact (reads_forLoop source reads scopes input).calmly
  · exact (reads_whileLoop source reads scopes input).calmly
  · exact calmly_repeatLoop source reads position
  · exact (reads_breakExpression source reads position scopes input).calmly
  · exact (reads_continueExpression source position scopes input).calmly
  · exact (reads_returnExpression source reads scopes input).calmly
  · exact yields_throw.calmly
  · exact yields_throw.calmly
  · exact (reads_identifier source reads granted name position scopes input).calmly

theorem reads_primary (reads : Reads offers expression)
    (granted : ∀ g, source.table.Grants g → offers g) :
    Reads offers (primary source expression) := by
  intro scopes input
  apply (quiet_position source).before
  intro here
  apply (quiet_check source .semicolon).before
  intro _
  apply yields_ite yields_throw
  intro base s at_
  apply at_.before (quiet_advance source) (ends_advance source s)
  intro found s' advanced at'
  -- What is taken tells whether what stands behind it stands behind a `const`.
  split
  · exact ends_throw at'.nil
  · next x => exact reads_number x scopes input base s' at'
  · next t => exact reads_text t scopes input base s' at'
  · next name =>
      by_cases const : name = "const"
      · subst const
        exact ends_throw at'.nil
      · have calm := advanced.2.calm at_.ahead (by simpa using const)
        exact calmly_word source reads granted name here base s' at' calm
  · have inner : Yields offers scopes input (do
        let inner ← expression
        expect source .rparen "to close '('"
        return inner) (fun n => input ++ [n.tree]) Right := by
      apply (reads scopes input).bind
      intro inner right
      apply (quiet_expect source .rparen _).before
      intro _
      exact yields_pure right fun _ _ at_ => at_
    exact inner base s' at'
  · exact calmly_brace source reads here base s' at' (advanced.2.calm at_.ahead (by simp))
  · exact ends_throw at'.nil

end MathScript.Parse
