import MathScript.Proofs.Abreast
import MathScript.Proofs.Reports

/-!
What two compilations have in common if the tokens of their texts are the same and the second keeps
no fewer diagnostics. The parses walk abreast, and neither runs out of rounds; so the diagnostics of
the first are those that the second starts with, and if there are none, both yield one program.
-/

namespace MathScript.Compile

open Parse

variable {table : Table} {settings settings' : Settings} {params : List String}
  {text text' : String}

/-- The diagnostics a text is refused with; none if it is accepted. -/
def errors (table : Table) (settings : Settings) (params : List String) (text : String) :
    List Diagnostic :=
  match compile table settings params text with
  | .ok _ => []
  | .error ds => ds

/-- What a parse that comes to its end makes of a text. -/
theorem parse_of_program {items : List Typed} {final : State}
    (done : program (source table settings text) (start settings params text.toList) =
      .ok items final) :
    parse table settings params text =
      if final.diagnostics.isEmpty then .ok ⟨(sequence items).tree, final.frameSize⟩
      else .error final.diagnostics.toList := by
  change program ⟨text.toList, table, settings.limits,
    (start settings params text.toList).rest.length + settings.maxErrors + 2⟩
      (start settings params text.toList) = .ok items final at done
  unfold parse
  dsimp only
  rw [done]

namespace Reading

variable {es : List Entry} {final : State}

theorem errors_eq (kept : 0 < settings.maxErrors)
    (reading : Reading table settings params text es final) :
    errors table settings params text = notes es := by
  obtain ⟨p, compiled⟩ := reading.compile_eq kept
  rw [errors, compiled]
  by_cases none : notes es = []
  · rw [if_pos none, none]
  · rw [if_neg none]

end Reading

/-- Every refused text leaves a diagnostic. -/
theorem errors_eq_nil (kept : 0 < settings.maxErrors) : errors table settings params text = [] ↔
    ∃ p, compile table settings params text = .ok p := by
  obtain ⟨es, final, reading⟩ := reading_exists table params text kept
  obtain ⟨p, compiled⟩ := reading.compile_eq kept
  rw [reading.errors_eq kept, compiled]
  by_cases none : notes es = []
  · exact iff_of_true none ⟨p, if_pos none⟩
  · refine iff_of_false none ?_
    rintro ⟨_, same⟩
    rw [if_neg none] at same
    cases same

theorem isOk_compile (kept : 0 < settings.maxErrors) :
    (compile table settings params text).isOk = (errors table settings params text).isEmpty := by
  rw [Bool.eq_iff_iff, List.isEmpty_iff, errors_eq_nil kept]
  cases compile table settings params text <;> simp [Except.isOk, Except.toBool]

theorem length_errors_le (kept : 0 < settings.maxErrors) :
    (errors table settings params text).length ≤ settings.maxErrors := by
  obtain ⟨es, final, reading⟩ := reading_exists table params text kept
  rw [reading.errors_eq kept]
  exact reading.notes_length_le kept

/-! ### Two compilations -/

/-- Two compilations with one table. The tokens are the same, up to where they stand, and so is what
is asked for, but that the second keeps no fewer diagnostics. -/
structure Resembles (settings settings' : Settings) (text text' : String)
    (near : Nat → Nat → Prop) : Prop where
  asked : settings' = { settings with maxErrors := settings'.maxErrors }
  errors : settings.maxErrors ≤ settings'.maxErrors
  lexemes : List.Forall₂ (fun l l' => near l.position l'.position ∧ l.content = l'.content)
    (lexemes settings text) (lexemes settings' text')
  origin : near 0 0
  ending : near (utf8Length text.toList) (utf8Length text'.toList)
  toward : ∀ here, ∃ there, near here there
  back : ∀ there, ∃ here, near here there

namespace Resembles

variable {near : Nat → Nat → Prop}

theorem allowance_le (like : Resembles settings settings' text text' near) (table : Table) :
    (source table settings text).allowance ≤ (source table settings' text').allowance := by
  have length := like.lexemes.length_eq
  have more := like.errors
  simp only [source]
  omega

/-- The two parses, the second as the only other side. -/
def sides (like : Resembles settings settings' text text' near) (table : Table) : Sides Unit where
  source := source table settings text
  others := fun _ => source table settings' text'
  naming := fun _ _ => none
  unknown := fun _ => none
  near := fun _ => near
  lax := fun _ => False
  patient := True
  rounds := (source table settings' text').allowance
  table := fun _ => rfl
  nesting := fun _ => by rw [like.asked]; exact Nat.le_refl _
  vectorSize := fun _ => by rw [like.asked]; exact Nat.le_refl _
  strict := fun _ _ => by rw [like.asked]; exact ⟨rfl, rfl⟩
  allowance := fun _ => rfl
  allowed := .inr ⟨trivial, like.allowance_le table⟩
  origin := fun _ => like.origin
  toward := fun here => (like.toward here).elim fun there nears => ⟨fun _ => there, fun _ => nears⟩
  back := fun _ place => (like.back place).imp fun _ nears =>
    ⟨fun _ => place, fun _ => nears, rfl⟩

variable (like : Resembles settings settings' text text' near)

include like

theorem abreast (table : Table) {alike : Diagnostic → Diagnostic → Prop}
    (located : ∀ here there cause, near here there →
      alike (.locate text.toList here cause) (.locate text'.toList there cause)) :
    (like.sides table).Abreast () alike where
  plain := rfl
  knowing := rfl
  strict := id
  errors := like.errors
  ending := like.ending
  located := located

theorem level (kept : 0 < settings.maxErrors) (table : Table)
    {alike : Diagnostic → Diagnostic → Prop} :
    Level (like.sides table) () alike (start settings params text.toList)
      (start settings' params text'.toList) where
  ahead := .nil
  rest := like.lexemes
  noted := .nil
  more := by
    have limit : (like.sides table).source.limits.errors = settings.maxErrors := rfl
    simp only [State.full, start, limit, Array.size_empty, decide_eq_false_iff_not]
    omega
  scopes := rfl
  frameSize := rfl
  loopDepth := rfl
  afterBrace := rfl

/-- Where both have come equally far, the other keeps no more than the first does. -/
theorem take_diagnostics {table : Table} {alike : Diagnostic → Diagnostic → Prop}
    {final final' : State} (level : Level (like.sides table) () alike final final') :
    final'.diagnostics.toList.take settings.maxErrors = final'.diagnostics.toList := by
  have limit : (like.sides table).source.limits.errors = settings.maxErrors := rfl
  have fewer : final.diagnostics.size < settings.maxErrors := by
    simpa [State.full, limit] using level.more
  refine List.take_of_length_le ?_
  rw [← level.noted.length_eq]
  exact Nat.le_of_lt fewer

/-- Parses that end equally far without a diagnostic yield the same. -/
theorem compile_of_level {table : Table} {alike : Diagnostic → Diagnostic → Prop}
    {final final' : State} {items : List Typed}
    (level : Level (like.sides table) () alike final final')
    (done : program (source table settings text) (start settings params text.toList) =
      .ok items final)
    (done' : program (source table settings' text') (start settings' params text'.toList) =
      .ok items final')
    (none : final.diagnostics.toList = []) :
    compile table settings params text = compile table settings' params text' := by
  have empty : final.diagnostics.isEmpty = true := by
    rw [← Array.isEmpty_toList, none]
    rfl
  have none' : final'.diagnostics.isEmpty = true := by
    rw [← Array.isEmpty_toList, List.isEmpty_iff_length_eq_zero, ← level.noted.length_eq, none]
    rfl
  rw [compile, compile, parse_of_program done, parse_of_program done', if_pos empty,
    if_pos none', level.frameSize, like.asked]

/-- The diagnostics of the first compilation are those that the other starts with. Without one, both
yield the same. -/
theorem outcomes (kept : 0 < settings.maxErrors) (alike : Diagnostic → Diagnostic → Prop)
    (located : ∀ here there cause, near here there →
      alike (.locate text.toList here cause) (.locate text'.toList there cause)) :
    List.Forall₂ alike (Compile.errors table settings params text)
        ((Compile.errors table settings' params text').take settings.maxErrors) ∧
      (Compile.errors table settings params text = [] →
        compile table settings params text = compile table settings' params text') := by
  have kept' : 0 < settings'.maxErrors := Nat.lt_of_lt_of_le kept like.errors
  obtain ⟨-, -, es, final, reading, noted, unstalled, -⟩ :=
    recovery_progresses table settings params text kept
  obtain ⟨es', final', reading'⟩ := reading_exists table params text' kept'
  have noted' := reading'.diagnostics kept'
  obtain ⟨items, done⟩ := reading.done
  obtain ⟨items', done'⟩ := reading'.done
  have side := like.abreast table located
  have level : Level (like.sides table) () alike (start settings params text.toList)
      (start settings' params text'.toList) := like.level kept table
  have met := ((Twins.program (like.sides table)).together side).meets _ _ level
  change Meets (like.sides table) () alike
    (program (source table settings text) (start settings params text.toList))
    (blindProgram (source table settings' text') none (start settings' params text'.toList)) at met
  rw [blindProgram_none, done, done'] at met
  have limit : (like.sides table).source.limits.errors = settings.maxErrors := rfl
  rw [reading.errors_eq kept, reading'.errors_eq kept', ← noted, ← noted']
  have most : final.diagnostics.size ≤ settings.maxErrors := by
    rw [← Array.length_toList, noted]
    exact reading.notes_length_le kept
  generalize ok : (EStateM.Result.ok items final : EStateM.Result Diagnostic _ _) = r,
    ok' : (EStateM.Result.ok items' final' : EStateM.Result Diagnostic _ _) = r' at met
  cases met with
  | ok a level =>
      cases ok
      cases ok'
      rw [like.take_diagnostics level]
      exact ⟨level.noted, like.compile_of_level level done done'⟩
  | error => cases ok
  | stalled => cases ok
  | parted parted =>
      subst ok ok'
      cases parted with
      | cut full nothing kept =>
          -- As many are kept as there can be, so what the other starts with is all of them.
          obtain ⟨ds, begins, likes⟩ := kept
          rw [lastState] at full likes begins
          have size : final.diagnostics.size = settings.maxErrors :=
            Nat.le_antisymm most (by simpa [State.full, limit] using full)
          have length : ds.length = settings.maxErrors := by
            rw [← likes.length_eq]
            exact size
          rw [← length, ← List.prefix_iff_eq_take.mp begins]
          refine ⟨likes, fun none => absurd size ?_⟩
          have empty : final.diagnostics.size = 0 := by
            rw [← Array.length_toList, none]
            rfl
          omega
      | stalled noted' cause => exact absurd cause (unstalled _ (noted ▸ noted'))

end Resembles

end MathScript.Compile
