import MathScript.Proofs.Magnitude
import MathScript.Proofs.Versions

/-!
The limits of a compilation only cut off. Where fewer diagnostics are kept, they are the first of
those that would be kept anyway; and what is accepted stays what it is where deeper nesting, longer
vectors or another number of diagnostics are allowed.
-/

namespace MathScript

namespace Compile

open Parse Renamable

variable {table : Table} {settings settings' : Settings} {params : List String} {text : String}

/-- The same compilation, but that the other keeps no fewer diagnostics. -/
theorem resembles_of_keeping {k : Nat} (more : settings.maxErrors ≤ k) :
    Resembles settings { settings with maxErrors := k } text text Eq where
  asked := rfl
  errors := more
  lexemes := List.forall₂_same.mpr fun _ _ => ⟨rfl, rfl⟩
  origin := rfl
  ending := rfl
  toward := fun here => ⟨here, rfl⟩
  back := fun there => ⟨there, rfl⟩

theorem errors_of_keeping (settings : Settings) (kept : 0 < settings.maxErrors) {k : Nat}
    (more : settings.maxErrors ≤ k) :
    errors table settings params text =
        (errors table { settings with maxErrors := k } params text).take settings.maxErrors ∧
      (errors table settings params text = [] → compile table settings params text =
        compile table { settings with maxErrors := k } params text) := by
  obtain ⟨same, accepted⟩ := (resembles_of_keeping more).outcomes kept Eq fun _ _ _ same => by
    rw [same]
  exact ⟨List.forall₂_eq_eq_eq ▸ same, accepted⟩

/-- How many diagnostics are kept does not matter to what is accepted. -/
theorem compile_of_keeping (settings : Settings) (kept : 0 < settings.maxErrors) {k : Nat}
    (some : 0 < k) {p : Program}
    (compiled : compile table settings params text = .ok p) :
    compile table { settings with maxErrors := k } params text = .ok p := by
  have none : errors table settings params text = [] := (errors_eq_nil kept).mpr ⟨p, compiled⟩
  rcases Nat.le_total settings.maxErrors k with more | fewer
  · exact ((errors_of_keeping settings kept more).2 none).symm.trans compiled
  · obtain ⟨same, accepted⟩ : _ = (errors table settings params text).take k ∧
        (_ → _ = compile table settings params text) :=
      errors_of_keeping { settings with maxErrors := k } some fewer
    rw [none, List.take_nil] at same
    rw [accepted same, compiled]

/-- A compilation and one with higher limits as the only other side. -/
def raisedSides (table : Table) (settings : Settings) (text : String) {nesting size : Nat}
    (deeper : settings.maxNestingDepth ≤ nesting) (longer : settings.maxVectorSize ≤ size) :
    Sides Unit where
  source := source table settings text
  others := fun _ => source table
    { settings with maxNestingDepth := nesting, maxVectorSize := size } text
  naming := fun _ _ => none
  unknown := fun _ => none
  near := fun _ => Eq
  lax := fun _ => True
  patient := False
  rounds := (source table settings text).allowance
  table := fun _ => rfl
  nesting := fun _ => deeper
  vectorSize := fun _ => longer
  strict := fun _ strict => absurd trivial strict
  allowance := fun _ => rfl
  allowed := .inl rfl
  origin := fun _ => rfl
  toward := fun here => ⟨fun _ => here, fun _ => rfl⟩
  back := fun _ place => ⟨place, fun _ => place, fun _ => rfl, rfl⟩

/-- What is accepted is accepted under higher limits. -/
theorem compile_of_raising (kept : 0 < settings.maxErrors) {nesting size : Nat}
    (deeper : settings.maxNestingDepth ≤ nesting) (longer : settings.maxVectorSize ≤ size)
    {p : Program} (compiled : compile table settings params text = .ok p) :
    compile table { settings with maxNestingDepth := nesting, maxVectorSize := size } params text =
      .ok p := by
  obtain ⟨items, final, accepted, rfl⟩ := exists_accepted kept compiled
  have variants : (raisedSides table settings text deeper longer).Variants := {
    errors := kept
    errors' := fun _ => kept
    ending := fun _ => rfl
    sizes := fun _ x above => Magnitude.toFloat_lt longer above
    blind := fun _ unknown => absurd rfl unknown
    distinct := nofun
    usable := nofun }
  have copies : ∀ i, Copy (raisedSides table settings text deeper longer) (fun _ _ => none) i
      (start settings params text.toList) (start settings params text.toList) := fun _ => {
    ahead := .nil
    rest := List.forall₂_same.mpr fun l inside => by
      obtain ⟨here, content⟩ := l
      obtain ⟨t, rfl : content = .ok t⟩ := accepted.faultless _ inside
      exact .token (.same rfl (fun _ _ => rfl) fun _ _ _ => nofun)
    scopes := List.forall₂_same.mpr fun _ _ => List.forall₂_same.mpr fun _ _ => .same rfl nofun
    frameSize := rfl
    loopDepth := rfl
    afterBrace := rfl
    clean := rfl }
  obtain ⟨ms, recital, told⟩ := accepted.tells _ variants rfl (fun _ _ => none)
    (fun _ => start settings params text.toList) copies
  have ended := told () fun m _ => by cases m.slot <;> rfl
  generalize done : blindProgram _ _ _ = r at ended
  cases ended with
  | hit hit =>
      obtain ⟨_, _, _, _, _, unknown⟩ := hit
      cases unknown
  | @spared final' spared copy =>
      change blindProgram (source table
        { settings with maxNestingDepth := nesting, maxVectorSize := size } text) none
        (start settings params text.toList) = _ at done
      rw [blindProgram_none] at done
      have unnamed : items.map (Typed.rename fun _ => none) = items := rename_none items
      refine (compile_of_program done copy.clean).trans ?_
      rw [copy.frameSize]
      exact congrArg (fun items => Except.ok (finished settings items final.frameSize)) unnamed

end Compile

/-- Settings that allow no less. As many diagnostics may be kept as there may be. -/
structure Settings.Raises (settings settings' : Settings) : Prop where
  asked : settings' = { settings with
    maxErrors := settings'.maxErrors
    maxNestingDepth := settings'.maxNestingDepth
    maxVectorSize := settings'.maxVectorSize }
  kept : 0 < settings'.maxErrors
  nesting : settings.maxNestingDepth ≤ settings'.maxNestingDepth
  vectorSize : settings.maxVectorSize ≤ settings'.maxVectorSize

namespace Compile

/-- The limits of a compilation only cut off. Where fewer diagnostics are kept, they are the first
of those that are kept otherwise. What is accepted is accepted with the same program under settings
that allow deeper nesting, longer vectors or another number of diagnostics. -/
theorem limits_cut_off (table : Table) (settings : Settings) (params : List String) (text : String)
    (kept : 0 < settings.maxErrors) :
    (∀ k, settings.maxErrors ≤ k → errors table settings params text =
      (errors table { settings with maxErrors := k } params text).take settings.maxErrors) ∧
    ∀ p settings', compile table settings params text = .ok p → settings.Raises settings' →
      compile table settings' params text = .ok p := by
  refine ⟨fun k more => (errors_of_keeping settings kept more).1, fun p settings' compiled raises => ?_⟩
  obtain ⟨asked, some, deeper, longer⟩ := raises
  rw [asked]
  exact compile_of_keeping { settings with
    maxNestingDepth := settings'.maxNestingDepth
    maxVectorSize := settings'.maxVectorSize } kept some
    (compile_of_raising kept deeper longer compiled)

/-- Of three unknown names the first two are reported where two diagnostics are kept; and what nests
as deeply as allowed is accepted where more is. -/
theorem limits_cut_off_of_names :
    0 < ({ maxErrors := 2, maxNestingDepth := 3 } : Settings).maxErrors ∧
    (errors (World.empty.table "t") { maxErrors := 3, maxNestingDepth := 3 } []
      "foo; bar; baz").map Diagnostic.position = [0, 5, 10] ∧
    (errors (World.empty.table "t") { maxErrors := 2, maxNestingDepth := 3 } []
      "foo; bar; baz").map Diagnostic.position = [0, 5] ∧
    (compile (World.empty.table "t") { maxErrors := 2, maxNestingDepth := 2 } []
      "((true))").isOk = false ∧
    ∃ p, compile (World.empty.table "t") { maxErrors := 2, maxNestingDepth := 3 } [] "((true))" =
        .ok p ∧
      compile (World.empty.table "t") { maxErrors := 1, maxNestingDepth := 4, maxVectorSize := 2 ^ 21 }
        [] "((true))" = .ok p := by
  have kept : 0 < ({ maxErrors := 2, maxNestingDepth := 3 } : Settings).maxErrors := by decide
  have three : (errors (World.empty.table "t") { maxErrors := 3, maxNestingDepth := 3 } []
      "foo; bar; baz").map Diagnostic.position = [0, 5, 10] := by decide +kernel
  have first := (limits_cut_off (World.empty.table "t") { maxErrors := 2, maxNestingDepth := 3 } []
    "foo; bar; baz" kept).1 3 (by decide)
  have second := (limits_cut_off (World.empty.table "t") { maxErrors := 2, maxNestingDepth := 3 } []
    "((true))" kept).2
  have accepted : (compile (World.empty.table "t") { maxErrors := 2, maxNestingDepth := 3 } []
    "((true))").isOk = true := by decide +kernel
  refine ⟨kept, three, ?_, by decide +kernel, ?_⟩
  · rw [first, List.map_take]
    exact congrArg (List.take 2) three
  · cases compiled : compile (World.empty.table "t") { maxErrors := 2, maxNestingDepth := 3 } []
        "((true))" with
    | error ds =>
        rw [compiled] at accepted
        cases accepted
    | ok p => exact ⟨p, rfl, second p _ compiled ⟨rfl, by decide, by decide, by decide⟩⟩

end Compile

end MathScript
