import MathScript.Session
import MathScript.Proofs.Nesting

/-!
What a compilation accepts, and what it leaves behind. A parse reads its text to the end, whatever
the text holds: it takes tokens and puts diagnostics down, and when it has put none down, it has
taken every lexeme of the text and there was no fault among them. A text with a diagnostic leaves
the expression, the tables and the storage of a session as they were.
-/

namespace MathScript

open Parse

namespace Compile

def lexemes (settings : Settings) (text : String) : List Lexeme :=
  Lexeme.read settings.implicitMultiplication text.toList

/-- What a parse is given. -/
def source (table : Table) (settings : Settings) (text : String) : Source :=
  ⟨text.toList, table, settings.limits, (lexemes settings text).length + settings.maxErrors + 2⟩

variable {table : Table} {settings : Settings} {params : List String} {text : String}

theorem given (kept : 0 < settings.maxErrors) :
    Given (source table settings text) (lexemes settings text) where
  ordered := Lexeme.ordered_read _ _
  inside := fun _ inside => Lexeme.position_read inside
  lexical := fun _ inside _ faulty => Lexeme.lexical_read inside faulty
  kept := kept
  allowed := by
    simp only [source, Settings.limits]
    omega

theorem ready (kept : 0 < settings.maxErrors) :
    Ready (source table settings text) (lexemes settings text)
      (start settings params text.toList) where
  left := .refl _
  spent := fun full => by
    simp only [State.full, start, source, Settings.limits, Array.size_empty, Nat.le_zero_eq,
      decide_eq_true_eq] at full
    omega
  kept := Nat.zero_le _

/-- A parse of a text from its start to its end, with its record. -/
structure Reading (table : Table) (settings : Settings) (params : List String) (text : String)
    (es : List Entry) (final : State) : Prop where
  done : ∃ items, program (source table settings text) (start settings params text.toList) =
    .ok items final
  passage : ∃ took, Passage (source table settings text) true (start settings params text.toList)
    took es final
  nothing : final.left = []

/-- Every text is read to its end. -/
theorem reading_exists (table : Table) (params : List String) (text : String)
    (kept : 0 < settings.maxErrors) : ∃ es final, Reading table settings params text es final := by
  have text' : Given (source table settings text) (lexemes settings text) := given kept
  have ready' : Ready (source table settings text) (lexemes settings text)
    (start settings params text.toList) := ready kept
  obtain ⟨items, final, done, ⟨took, es, passage⟩, nothing⟩ := program_listed text' ready'
  exact ⟨es, final, ⟨items, done⟩, ⟨took, passage⟩, nothing⟩

namespace Reading

variable {es : List Entry} {final : State}
variable (reading : Reading table settings params text es final)

include reading

theorem moved (kept : 0 < settings.maxErrors) : ∃ took,
    Moved (source table settings text) (lexemes settings text)
      (start settings params text.toList) took es final := by
  obtain ⟨took, passage⟩ := reading.passage
  exact ⟨took, passage.moved (ready kept)⟩

theorem diagnostics (kept : 0 < settings.maxErrors) :
    final.diagnostics.toList = notes es := by
  obtain ⟨took, moved⟩ := reading.moved kept
  simpa [start] using moved.diagnostics

theorem parse_eq : ∃ p, parse table settings params text =
    if final.diagnostics.isEmpty then .ok p else .error final.diagnostics.toList := by
  obtain ⟨items, done⟩ := reading.done
  change program ⟨text.toList, table, settings.limits,
    (start settings params text.toList).rest.length + settings.maxErrors + 2⟩
      (start settings params text.toList) = .ok items final at done
  refine ⟨⟨(sequence items).tree, final.frameSize⟩, ?_⟩
  unfold parse
  dsimp only
  rw [done]

/-- What a compilation comes to is told by the diagnostics of its parse. -/
theorem compile_eq (kept : 0 < settings.maxErrors) : ∃ p, compile table settings params text =
    if notes es = [] then .ok p else .error (notes es) := by
  obtain ⟨p, parsed⟩ := reading.parse_eq
  have diagnostics := reading.diagnostics kept
  refine ⟨if settings.constantFolding then p.fold else p, ?_⟩
  rw [compile, parsed]
  cases none : notes es with
  | nil =>
      have empty : final.diagnostics.isEmpty = true := by
        rw [← Array.isEmpty_toList, diagnostics, none]
        rfl
      simp [empty, Except.map]
  | cons d ds =>
      have some : final.diagnostics.isEmpty = false := by
        rw [← Array.isEmpty_toList, diagnostics, none]
        rfl
      simp [some, diagnostics, none, Except.map]

/-- As many diagnostics are kept as the settings allow, and not more. -/
theorem notes_length_le (kept : 0 < settings.maxErrors) :
    (notes es).length ≤ settings.maxErrors := by
  obtain ⟨took, moved⟩ := reading.moved kept
  rw [← reading.diagnostics kept, Array.length_toList]
  exact moved.ready.kept

/-- Without a diagnostic every lexeme is taken. -/
theorem takings_eq (kept : 0 < settings.maxErrors) (none : notes es = []) :
    takings es = lexemes settings text := by
  obtain ⟨took, moved⟩ := reading.moved kept
  have whole := moved.whole none
  rw [reading.nothing, List.append_nil] at whole
  exact whole.symm

end Reading

end Compile

namespace Parse

/-- Only tokens are taken. -/
theorem exists_token_of_mem_takings {es : List Entry} {l : Lexeme} (taken : l ∈ takings es) :
    ∃ t, l.content = .ok t := by
  obtain ⟨e, -, found⟩ := List.mem_filterMap.mp taken
  cases e with
  | taken position t => exact ⟨t, by rw [← Option.some.inj found]⟩
  | noted d => cases found

end Parse

namespace Session

variable {s : Session} {name other : String} {e : Expression}

theorem expression_withExpression (table : String) :
    (s.withExpression name e).expression name table = e := by
  simp [withExpression, expression, Named.lookup_put_self]

theorem expression_withExpression_of_ne (different : other ≠ name) (table : String) :
    (s.withExpression name e).expression other table = s.expression other table := by
  simp [withExpression, expression, Named.lookup_put_of_ne different]

section

variable {table text : String} {es : List Entry} {final : State}
variable (kept : 0 < s.settings.maxErrors) (reading : Compile.Reading
  (s.world.table (s.expression name table).table) s.settings [] text es final)

include kept reading

theorem compile_accepted (none : notes es = []) : ∃ p,
    MathScript.compile (s.world.table (s.expression name table).table) s.settings [] text = .ok p ∧
    s.compile name table text = (true, { s with diagnostics := [] }.withExpression name
      ((s.expression name table).install p s.watch s.settings.maxCallDepth)) := by
  obtain ⟨p, compiled⟩ := reading.compile_eq kept
  rw [if_pos none] at compiled
  exact ⟨p, compiled, by simp only [Session.compile, compiled]⟩

theorem compile_refused (some : notes es ≠ []) : s.compile name table text =
    (false, { s with diagnostics := notes es }.withExpression name (s.expression name table)) := by
  obtain ⟨p, compiled⟩ := reading.compile_eq kept
  rw [if_neg some] at compiled
  simp only [Session.compile, compiled]

/-- A session shows the diagnostics of the parse. -/
theorem errors_compile : (s.compile name table text).2.errors = notes es := by
  by_cases none : notes es = []
  · obtain ⟨p, -, result⟩ := compile_accepted kept reading none
    rw [result, none]
    rfl
  · rw [compile_refused kept reading none]
    rfl

end

/-- Whatever a compilation comes to, the tables and the storage stay as they are, and so do the
settings, the check and the other expressions. -/
structure Undisturbed (s s' : Session) (name : String) : Prop where
  world : s'.world = s.world
  settings : s'.settings = s.settings
  watch : s'.watch = s.watch
  others : ∀ other, other ≠ name → ∀ table, s'.expression other table = s.expression other table

/-- No fault was among the lexemes of an accepted text, and all of them were taken. -/
structure Accepts (s s' : Session) (name table text : String) (es : List Entry) : Prop where
  sound : ∀ l ∈ Compile.lexemes s.settings text, ∃ t, l.content = .ok t
  taken : takings es = Compile.lexemes s.settings text
  installed : ∃ p, MathScript.compile (s.world.table (s.expression name table).table) s.settings []
      text = .ok p ∧
    s'.expression name table =
      (s.expression name table).install p s.watch s.settings.maxCallDepth

/-- A refused text leaves diagnostics and the expression as it was. -/
structure Refuses (s s' : Session) (name table : String) : Prop where
  some : 1 ≤ s'.errorCount
  most : s'.errorCount ≤ s.settings.maxErrors
  expression : s'.expression name table = s.expression name table

/-- A text is accepted just if its parse, which always reads it to its end, puts no diagnostic
down. -/
theorem compile_exact (s : Session) (kept : 0 < s.settings.maxErrors) (name table text : String) :
    ∃ es final accepted s', s.compile name table text = (accepted, s') ∧
      Compile.Reading (s.world.table (s.expression name table).table) s.settings [] text es final ∧
      s'.errors = final.diagnostics.toList ∧
      (s'.errorCount = s'.errors.length ∧ ∀ i, s'.getError? i = s'.errors[i]?) ∧
      (accepted = true ↔ s'.errors = []) ∧
      (accepted = true → Accepts s s' name table text es) ∧
      (accepted = false → Refuses s s' name table) ∧
      Undisturbed s s' name := by
  obtain ⟨es, final, reading⟩ := Compile.reading_exists
    (s.world.table (s.expression name table).table) [] text kept
  have diagnostics := reading.diagnostics kept
  by_cases none : notes es = []
  · obtain ⟨p, compiled, result⟩ := compile_accepted kept reading none
    have taken := reading.takings_eq kept none
    refine ⟨es, final, true, _, result, reading, ?_, ⟨rfl, fun _ => rfl⟩, ?_, fun _ => ?_,
      fun refused => absurd refused (by decide), ?_⟩
    · rw [diagnostics, none]
      rfl
    · exact iff_of_true rfl rfl
    · exact ⟨fun l inside => exists_token_of_mem_takings (taken ▸ inside), taken, p, compiled,
        expression_withExpression table⟩
    · exact ⟨rfl, rfl, rfl, fun other different => expression_withExpression_of_ne different⟩
  · have result := compile_refused kept reading none
    refine ⟨es, final, false, _, result, reading, diagnostics.symm, ⟨rfl, fun _ => rfl⟩, ?_,
      fun accepted => absurd accepted (by decide), fun _ => ?_, ?_⟩
    · exact iff_of_false Bool.false_ne_true none
    · exact ⟨List.length_pos_iff.mpr none, reading.notes_length_le kept,
        expression_withExpression table⟩
    · exact ⟨rfl, rfl, rfl, fun other different => expression_withExpression_of_ne different⟩

/-- A brace that is not closed, with an unknown name behind it. -/
theorem compile_exact_of_unclosed :
    0 < (start {}).settings.maxErrors ∧ ∃ s', (start {}).compile "e" "t" "\x7b foo" = (false, s') ∧
      Refuses (start {}) s' "e" "t" ∧ Undisturbed (start {}) s' "e" := by
  have kept : 0 < (start {}).settings.maxErrors := by decide
  obtain ⟨es, final, accepted, s', result, -, -, -, -, -, refuses, undisturbed⟩ :=
    compile_exact (start {}) kept "e" "t" "\x7b foo"
  have refused : ((start {}).compile "e" "t" "\x7b foo").1 = false := by decide +kernel
  obtain rfl : accepted = false := by rw [← refused, result]
  exact ⟨kept, s', result, refuses rfl, undisturbed⟩

end Session

end MathScript
