import MathScript.Proofs.Acceptance
import MathScript.Proofs.Sequence

/-!
What the diagnostics of a compilation have in common: in which order they stand, and how many there
can be. Neither goes without exceptions. A statement is reported where it began, behind what was
reported from its inside; and at the limit of nesting one diagnostic can be put down again and
again, with no token taken in between.
-/

namespace MathScript

open Parse

namespace Parse

variable {source : Source} {given : List Lexeme}
variable {list took : Bool} {b s : State} {es : List Entry}

theorem Act.unstalled (text : Given source given) (act : Act source b took es s)
    (ready : Ready source given b) : ∀ d ∈ notes es, d.cause ≠ .stalled := by
  cases act with
  | @fault position cause rest next =>
      have there : ⟨position, .error cause⟩ ∈ given :=
        ready.left.subset (b.rest_sublist.subset (next ▸ List.mem_cons_self))
      have lexical := text.lexical _ there cause rfl
      simp only [notes_noted, notes_nil, List.forall_mem_singleton, Diagnostic.locate]
      rintro rfl
      cases lexical
  | look => simp
  | take => simp
  | turn => simp

theorem Acts.unstalled (text : Given source given) (acts : Acts source b took es s)
    (ready : Ready source given b) : ∀ d ∈ notes es, d.cause ≠ .stalled := by
  induction acts with
  | refl => simp
  | step before act ih =>
      rw [notes_append, List.forall_mem_append]
      exact ⟨ih ready, act.unstalled text (before.moved ready).ready⟩

/-- No diagnostic is put down because a parser ran out of rounds. -/
theorem Passage.unstalled (text : Given source given) (passage : Passage source list b took es s)
    (ready : Ready source given b) : ∀ d ∈ notes es, d.cause ≠ .stalled := by
  induction passage with
  | refl => simp
  | act before act ih =>
      rw [notes_append, List.forall_mem_append]
      exact ⟨ih ready, act.unstalled text (before.moved ready).ready⟩
  | nest before next opens inner ih ihInner =>
      have readyS := (before.moved ready).ready
      have readyT := ((Act.take next).moved readyS).ready
      rw [notes_append, notes_taken, List.forall_mem_append]
      exact ⟨ih ready, ihInner readyT⟩
  | failed before first second proper open' skipped progress ih ihFirst ihSecond =>
      have readyB := (before.moved ready).ready
      have readyM := (first.moved readyB).ready
      have readyS := (second.moved readyM).ready
      have skipping := skipped.unstalled text (Moved.record readyS open').ready
      simp only [notes_append, notes_noted, List.forall_mem_append, List.forall_mem_cons]
      exact ⟨⟨⟨ih ready, ihFirst readyB⟩, ihSecond readyM⟩, Cause.ne_stalled proper, skipping⟩
  | stuck before next ends deep open' size diagnostics none ih =>
      subst deep
      rw [notes_append, notes_replicate, List.forall_mem_append]
      refine ⟨ih ready, fun d inside => ?_⟩
      obtain rfl := List.eq_of_mem_replicate inside
      exact Cause.ne_stalled rfl

end Parse

/-! ### Order -/

/-- Behind the lexeme a list of statements starts. -/
def Lexeme.isOpening (l : Lexeme) : Bool :=
  match l.content with
  | .ok t => opening t
  | .error _ => false

section

variable {given : List Lexeme} {d d' : Diagnostic}

/-- Where there are no lists inside of statements and no faults, only the order of the text is
left. -/
theorem Parse.InTurn.le (turn : InTurn given d d') (plain : d.category ≠ .lexer)
    (flat : ∀ l ∈ given, l.isOpening = false) : d.position ≤ d'.position := by
  rcases turn with before | ⟨-, fault | ⟨position, t, there, opens, -⟩⟩
  · exact before
  · exact absurd fault plain
  · exact absurd opens (Bool.eq_false_iff.mp (flat _ there))

end

namespace Session

/-- In which order the diagnostics of a compilation stand. Of two diagnostics the later one stands
no earlier in the text, unless it is about a statement, and the earlier one is about a fault or a
list of statements starts between the two. So they are in the order of the text where there are no
faults and no such lists. -/
theorem errors_in_turn (s : Session) (kept : 0 < s.settings.maxErrors) (name table text : String) :
    (s.compile name table text).2.errors.Pairwise (InTurn (Compile.lexemes s.settings text)) ∧
    ((∀ d ∈ (s.compile name table text).2.errors, d.category ≠ .lexer) →
      (∀ l ∈ Compile.lexemes s.settings text, l.isOpening = false) →
      (s.compile name table text).2.errors.Pairwise fun d d' => d.position ≤ d'.position) := by
  obtain ⟨es, final, reading⟩ := Compile.reading_exists
    (s.world.table (s.expression name table).table) [] text kept
  obtain ⟨took, passage⟩ := reading.passage
  rw [errors_compile kept reading]
  have turns := (passage.inSequence (Compile.given kept) (Compile.ready kept)).pairs
  exact ⟨turns, fun plain flat =>
    turns.imp_of_mem fun inside _ turn => turn.le (plain _ inside) flat⟩

/-- Two statements that fail, side by side and without faults. -/
theorem errors_in_turn_of_unknown :
    0 < (start {}).settings.maxErrors ∧
    ((start {}).compile "e" "t" "foo; bar").2.errors.map (·.position) = [0, 5] ∧
    ((start {}).compile "e" "t" "foo; bar").2.errors.Pairwise
      fun d d' => d.position ≤ d'.position := by
  have kept : 0 < (start {}).settings.maxErrors := by decide
  have plain : ∀ d ∈ ((start {}).compile "e" "t" "foo; bar").2.errors, d.category ≠ .lexer := by
    decide +kernel
  have flat : ∀ l ∈ Compile.lexemes (start {}).settings "foo; bar", l.isOpening = false := by
    decide +kernel
  exact ⟨kept, by decide +kernel, (errors_in_turn (start {}) kept "e" "t" "foo; bar").2 plain flat⟩

/-- The name is put down where it is passed, the brace in front of it where its block ends. -/
example : ((start {}).compile "e" "t" "\x7b foo").2.errors.map (·.position) = [2, 0] := by
  decide +kernel

end Session

/-! ### Number -/

/-- A list of statements with `levels` levels of nesting left. A whole text is one with all of
them. -/
def Parse.listAt (source : Source) (levels : Nat) :
    Stop → Nat → List Typed → Parse (List Typed) :=
  statements source (Parse.expression source (operand source levels))

namespace Compile

/-- How lists of statements get on, and how many diagnostics there are. A round of a list, at any
level of nesting, ends the list, leaves fewer lexemes than it found, or is stuck: it puts down that
no nesting is left, in front of a token that ends another list. A stuck list puts that down until
no more diagnostics are kept. So a parse ends, no parser in it runs out of rounds, and there are no
more diagnostics than lexemes; or else all but the last of them, which are the same, are fewer than
the lexemes. -/
theorem recovery_progresses (table : Table) (settings : Settings) (params : List String)
    (text : String) (kept : 0 < settings.maxErrors) :
    (∀ levels stop fuel items s,
      Ready (source table settings text) (lexemes settings text) s →
      Round (source table settings text) (levels == 0) stop s
        (listAt (source table settings text) levels stop fuel)
        (listAt (source table settings text) levels stop (fuel + 1) items s)) ∧
    (∀ stop position fuel items s,
      Ready (source table settings text) (lexemes settings text) s →
      Stuck true stop position s → s.budget (source table settings text) < fuel →
      ∃ s' count,
        listAt (source table settings text) 0 stop fuel items s = .ok items.reverse s' ∧
        s'.diagnostics.size = settings.maxErrors ∧
        s'.diagnostics.toList = s.diagnostics.toList ++ List.replicate count
          (.locate text.toList position (.nestedTooDeep settings.maxNestingDepth))) ∧
    ∃ es final, Reading table settings params text es final ∧
      final.diagnostics.toList = notes es ∧ (∀ d ∈ notes es, d.cause ≠ .stalled) ∧
      ((notes es).length ≤ (lexemes settings text).length ∨
        Jammed (source table settings text) (lexemes settings text)
          (start settings params text.toList) es final) := by
  have text' : Given (source table settings text) (lexemes settings text) := given kept
  have allowed : 0 < (source table settings text).allowance := Nat.zero_lt_of_lt text'.allowed
  refine ⟨fun levels stop fuel items s ready => ?_,
    fun stop position fuel items s ready stuck within => ?_, ?_⟩
  · refine statements_round text' ready (expression_begins _ (operand_begins allowed levels))
      (fun last => ?_) stop fuel items
    rw [beq_iff_eq.mp last]
    exact deep_operand allowed
  · obtain ⟨s', count, done, -, size, diagnostics⟩ := statements_jammed text' ready
      (deep_operand allowed) stuck rfl fuel items within
    exact ⟨s', count, done, size, diagnostics⟩
  · obtain ⟨es, final, reading⟩ := reading_exists table params text kept
    obtain ⟨took, passage⟩ := reading.passage
    have ready' : Ready (source table settings text) (lexemes settings text)
      (start settings params text.toList) := ready kept
    refine ⟨es, final, reading, reading.diagnostics kept, passage.unstalled text' ready', ?_⟩
    refine (passage.charged ready').imp_left fun charged => ?_
    rw [Charged] at charged
    have all : (start settings params text.toList).left = lexemes settings text := rfl
    rw [all] at charged
    omega

/-- At the limit of nesting, a block with the end of another list in it: there are three lexemes,
and as many diagnostics as are kept. -/
theorem recovery_progresses_of_jam :
    0 < ({ maxNestingDepth := 1, maxErrors := 5 } : Settings).maxErrors ∧
    ∃ es final, Reading (World.empty.table "t") { maxNestingDepth := 1, maxErrors := 5 } []
        "\x7buntil\x7d" es final ∧ (notes es).length = 5 ∧
      Jammed (source (World.empty.table "t") { maxNestingDepth := 1, maxErrors := 5 }
          "\x7buntil\x7d")
        (lexemes { maxNestingDepth := 1, maxErrors := 5 } "\x7buntil\x7d")
        (start { maxNestingDepth := 1, maxErrors := 5 } [] "\x7buntil\x7d".toList) es final := by
  have kept : 0 < ({ maxNestingDepth := 1, maxErrors := 5 } : Settings).maxErrors := by decide
  obtain ⟨-, -, es, final, reading, -, -, bound⟩ := recovery_progresses (World.empty.table "t")
    { maxNestingDepth := 1, maxErrors := 5 } [] "\x7buntil\x7d" kept
  have lexemes : (lexemes { maxNestingDepth := 1, maxErrors := 5 } "\x7buntil\x7d").length = 3 := by
    decide +kernel
  have count : ((Session.start { maxNestingDepth := 1, maxErrors := 5 }).compile "e" "t"
      "\x7buntil\x7d").2.errors.length = 5 := by
    decide +kernel
  have length : (notes es).length = 5 := by
    rwa [Session.errors_compile kept reading] at count
  exact ⟨kept, es, final, reading, length, bound.resolve_left (by omega)⟩

end Compile

end MathScript
