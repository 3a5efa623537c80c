import MathScript.Proofs.Ceilings
import MathScript.Proofs.Diary
import MathScript.Proofs.History

/-!
What the limits of a compilation bound. The limit of nesting bounds the levels of a tree but for the
links of its chains, which are no more than the signs of the text. The limit of vectors bounds the
lengths that declarations ask for, and leaves out those that are the number of the values given.
-/

namespace MathScript

open Parse

/-- What is told of an accepted program, if something is told. -/
theorem ok_of_map {ε α β : Type} {r : Except ε α} {f : α → β} {b : β}
    (read : r.toOption.map f = some b) : ∃ a, r = .ok a ∧ f a = b := by
  cases r with
  | error => cases read
  | ok a => exact ⟨a, rfl, Option.some.inj read⟩

variable {table : Table} {settings : Settings} {params : List String} {text : String}
  {p : Program}

/-! ### Nesting -/

/-- How many signs of links a text has. The signs of products that are put in are among them. -/
def signs (settings : Settings) (text : String) : Nat :=
  (tokensOf (Lexeme.read settings.implicitMultiplication text.toList)).countP Token.links

/-- A program as it was read is as high as its nesting allows and its signs make it. -/
theorem parse_within (parsed : parse table settings params text = .ok p) (counted : Bool) :
    p.tree.Within (Tree.HasSize settings.maxVectorSize) counted
      (3 * settings.maxNestingDepth + 2 + counted.toNat * signs settings text) := by
  obtain ⟨source, items, s, -, text_eq, limits, end_eq, rfl⟩ := parse_ok parsed
  have ends : Parse.Spends counted (Compile.start settings params source.text) (program source) _ :=
    pays_program source _
  obtain ⟨spent, paid, fits⟩ := ends.of_ok end_eq
  have slack : (Compile.start settings params source.text).slack counted =
      counted.toNat * signs settings text := by
    rw [text_eq]
    rfl
  rw [limits] at fits
  exact (sequence_fits fits (Nat.le_refl _)).within.mono (by simp only [Settings.limits]; omega)

/-- The limit of nesting bounds all levels but those of links, and there are no more links on the
way to a leaf than there are signs. -/
theorem nesting_bounds_levels (parsed : parse table settings params text = .ok p) :
    p.tree.levels ≤ 3 * settings.maxNestingDepth + 2 ∧
      p.tree.depth ≤ 3 * settings.maxNestingDepth + 2 + signs settings text := by
  constructor
  · have most := (parse_within parsed false).height_le
    rwa [Bool.toNat_false, Nat.zero_mul, Nat.add_zero] at most
  · have most := (parse_within parsed true).height_le
    rwa [Bool.toNat_true, Nat.one_mul] at most

/-- A sum is assigned in a loop in the block of a loop: five operands inside of one another. -/
theorem nesting_bounds_levels_of_loop :
    ∃ p, parse Table.empty { maxNestingDepth := 5 } []
        "var x := true; while (x) { repeat x := not x + x + x; until (x) }" = .ok p ∧
      p.tree.levels ≤ 17 ∧ p.tree.depth ≤ 21 := by
  have accepted : (parse Table.empty { maxNestingDepth := 5 } []
      "var x := true; while (x) { repeat x := not x + x + x; until (x) }").toOption.map
      (fun _ => ()) = some () := by
    decide +kernel
  obtain ⟨p, parsed, -⟩ := ok_of_map accepted
  obtain ⟨levels, depth⟩ := nesting_bounds_levels parsed
  have count : signs { maxNestingDepth := 5 }
      "var x := true; while (x) { repeat x := not x + x + x; until (x) }" = 4 := by
    decide +kernel
  rw [count] at depth
  exact ⟨p, parsed, levels, depth⟩

/-- A sum of 33 numbers nests in nothing and is 33 levels deep. -/
theorem chain_outgrows_nesting :
    ∃ p, parse Table.empty { maxNestingDepth := 1 } []
        "1+1+1+1+1+1+1+1+1+1+1+1+1+1+1+1+1+1+1+1+1+1+1+1+1+1+1+1+1+1+1+1+1" = .ok p ∧
      ¬ p.tree.depth ≤ 32 * 1 := by
  have depth : (parse Table.empty { maxNestingDepth := 1 } []
      "1+1+1+1+1+1+1+1+1+1+1+1+1+1+1+1+1+1+1+1+1+1+1+1+1+1+1+1+1+1+1+1+1").toOption.map
      (fun p => p.tree.depth) = some 33 := by
    decide +kernel
  obtain ⟨p, parsed, depth⟩ := ok_of_map depth
  exact ⟨p, parsed, by rw [depth]; decide⟩

/-! ### Vectors -/

namespace Parse

variable (source : Source)

theorem ends_eat_other {sym : Sym} {s : State} (other : s.tokens.head? ≠ some (.sym sym)) :
    Ends (eat source sym) s (fun taken _ => taken = false) fun _ _ => False := by
  refine ends_bind ((ends_checking source (.sym sym) s).mono (fun there s₁ checked => ?_)
    fun _ _ => id)
  cases there with
  | false => exact ends_pure rfl
  | true => exact absurd (checked.1.head (checked.2 rfl)) other

/-- What is asked for is read. -/
theorem ends_declaredLength {expression : Parse Typed} {s : State}
    (asked : s.tokens.head? ≠ some (.sym .rbracket)) :
    Ends (declaredLength source expression) s (fun length _ => length ≠ none) fun _ _ => True := by
  refine ends_bind ((ends_eat_other source asked).mono (fun taken _ none => ?_)
    fun _ _ => False.elim)
  subst none
  refine ends_bind (ends_true.mono (fun here _ _ => ?_) fun _ _ => id)
  refine ends_bind (ends_true.mono (fun size _ _ => ?_) fun _ _ => id)
  refine ends_bind (ends_true.mono (fun _ _ _ => ?_) fun _ _ => id)
  exact ends_bind (ends_true.mono (fun n _ _ => ends_pure (Option.some_ne_none n)) fun _ _ => id)

/-- A length that is asked for is held against the limit, however the vector is filled. -/
theorem ends_vectorDeclaration (levels : Nat) (name : String) (position : Nat) {s : State}
    (asked : s.tokens.head? ≠ some (.sym .rbracket)) :
    Ends (vectorDeclaration source (expression source (operand source levels)) name position) s
      (fun declared _ => ∃ length fill, declared.1 = .vector length fill ∧
        Sized source.limits.vectorSize length fill declared.2.length ∧
          Allows source.limits.vectorSize length) fun _ _ => True := by
  have reaches : Reaches source.limits.vectorSize false (3 * levels)
      (expression source (operand source levels)) :=
    reaches_expression source (reaches_operand source levels)
  refine ends_bind (((ends_declaredLength source asked).and
    (pays_declaredLength source reaches s)).mono ?_ fun _ _ _ => trivial)
  rintro length s₁ ⟨present, _, _, allowed⟩
  obtain ⟨n, rfl⟩ := Option.ne_none_iff_exists'.mp present
  obtain ⟨nonempty, allows⟩ := allowed n rfl
  refine ends_bind ((pays_vectorFill source reaches name (some n) s₁).mono ?_
    fun _ _ _ => trivial)
  rintro ⟨fill, parts⟩ s₂ ⟨_, _, fills⟩
  exact ends_pure ⟨n, fill, rfl, ⟨nonempty, fills.room n rfl, .inl allows⟩, allows⟩

end Parse

/-- Declared vectors have their sizes. Whatever a text is compiled to, every vector that is declared
in it has an element and room for the values it is given, and is as long as the limit allows but
where it is as long as the list of its values. And where a declaration asks for a length, the length
is held against the limit, however many values it is given. -/
theorem vectors_sized (table : Table) (settings : Settings) (params : List String)
    (text : String) :
    (∀ p, compile table settings params text = .ok p → ∀ slot length fill parts,
        Tree.declare slot (.vector length fill) parts ∈ p.tree.nodes →
          Sized settings.maxVectorSize length fill parts.length) ∧
      ∀ (source : Source) (levels : Nat) (name : String) (position : Nat) (s : Parse.State),
        s.tokens.head? ≠ some (.sym .rbracket) →
          Ends (vectorDeclaration source (expression source (operand source levels)) name position)
            s (fun declared _ => ∃ length fill, declared.1 = .vector length fill ∧
              Sized source.limits.vectorSize length fill declared.2.length ∧
                Allows source.limits.vectorSize length) fun _ _ => True := by
  refine ⟨?_, fun source levels name position s asked =>
    ends_vectorDeclaration source levels name position asked⟩
  intro p compiled slot length fill parts declared
  obtain ⟨q, parsed, rfl⟩ := compile_ok compiled
  have every := (parse_within parsed false).every
  have settled : (q.settle settings.constantFolding).tree.Every
      (Tree.HasSize settings.maxVectorSize) := by
    unfold Program.settle
    split
    · exact every.sizes_fold
    · exact every
  exact Tree.every_iff.mp settled _ declared slot length fill rfl

theorem exists_declare {t : Tree} {slot : Nat} {shape : Shape}
    (inside : (slot, shape) ∈ t.nodes.filterMap Tree.declaration?) :
    ∃ parts, Tree.declare slot shape parts ∈ t.nodes := by
  obtain ⟨node, within, declared⟩ := List.mem_filterMap.mp inside
  obtain ⟨parts, rfl⟩ := Tree.eq_declare declared
  exact ⟨parts, within⟩

/-- In a branch that is folded, a vector is as long as its list and another one as it was asked for,
which is at most the limit; and a length is read before the list that has to fit in it. -/
theorem vectors_sized_of_literal :
    (∃ p, compile Table.empty {} [] "if (true) { var v[] := {true, false}; var w[3] }" = .ok p ∧
      (∃ parts, Tree.declare 0 (.vector 2 .literal) parts ∈ p.tree.nodes ∧
        Sized 1048576 2 .literal parts.length) ∧
      ∃ parts, Tree.declare 1 (.vector 3 .zero) parts ∈ p.tree.nodes ∧ 3 ≤ 1048576) ∧
    ∃ source s declared s',
      vectorDeclaration source (expression source (operand source 1)) "v" 0 s = .ok declared s' ∧
        declared.1 = .vector 3 .literal ∧ declared.2.length ≤ 3 ∧ 3 ≤ 4 := by
  constructor
  · have shapes : (compile Table.empty {} []
        "if (true) { var v[] := {true, false}; var w[3] }").toOption.map
        (fun p => p.tree.nodes.filterMap Tree.declaration?) =
          some [(0, .vector 2 .literal), (1, .vector 3 .zero)] := by
      decide +kernel
    obtain ⟨p, compiled, shapes⟩ := ok_of_map shapes
    obtain ⟨parts, declared⟩ := exists_declare (shapes ▸ List.mem_cons_self)
    obtain ⟨parts', declared'⟩ :=
      exists_declare (shapes ▸ List.mem_cons_of_mem _ (List.mem_singleton_self _))
    have sized := (vectors_sized _ _ _ _).1 p compiled _ _ _ _ declared
    obtain ⟨-, -, allows | ⟨counted, -⟩⟩ :=
      (vectors_sized _ _ _ _).1 p compiled _ _ _ _ declared'
    · exact ⟨p, compiled, ⟨parts, declared, sized⟩, parts', declared', allows.le (by decide)⟩
    · cases counted
  · let text := "3] := {1}".toList
    let source : Source := ⟨text, Table.empty, { maxVectorSize := 4 : Settings }.limits, 20⟩
    let s := Compile.start {} [] text
    have shape : (match vectorDeclaration source (expression source (operand source 1)) "v" 0 s
        with
        | .ok declared _ => some declared.1
        | .error _ _ => none) = some (.vector 3 .literal) := by
      decide +kernel
    cases end_eq : vectorDeclaration source (expression source (operand source 1)) "v" 0 s with
    | error d s' =>
        rw [end_eq] at shape
        cases shape
    | ok declared s' =>
        rw [end_eq] at shape
        have asked : s.tokens.head? ≠ some (.sym .rbracket) := by decide +kernel
        obtain ⟨length, fill, same, sized, allows⟩ :=
          ((vectors_sized Table.empty {} [] "").2 source 1 "v" 0 s asked).of_ok end_eq
        obtain ⟨rfl, rfl⟩ : length = 3 ∧ fill = .literal := by
          simpa [same] using shape
        exact ⟨source, s, declared, s', end_eq, same, sized.room rfl, allows.le (by decide)⟩

/-- A length that is counted is not held against the limit. -/
theorem counted_length_outgrows_limit :
    ∃ p, compile Table.empty { maxVectorSize := 4 } [] "var v[] := {1,2,3,4,5}" = .ok p ∧
      ∃ slot length fill parts, Tree.declare slot (.vector length fill) parts ∈ p.tree.nodes ∧
        ¬ length ≤ 4 := by
  have shapes : (compile Table.empty { maxVectorSize := 4 } []
      "var v[] := {1,2,3,4,5}").toOption.map
      (fun p => p.tree.nodes.filterMap Tree.declaration?) = some [(0, .vector 5 .literal)] := by
    decide +kernel
  obtain ⟨p, compiled, shapes⟩ := ok_of_map shapes
  obtain ⟨parts, declared⟩ := exists_declare (shapes ▸ List.mem_singleton_self _)
  exact ⟨p, compiled, 0, 5, .literal, parts, declared, by decide⟩

end MathScript
