import MathScript.Proofs.Christening
import MathScript.Proofs.Outcomes

/-!
An accepted text and versions of it: the text under other limits, or with other names, or read by a
parse that does not know a local. The parse of the text tells what that of a version comes to.
-/

namespace MathScript.Compile

open Parse Renamable

variable {table : Table} {settings : Settings} {params : List String} {text : String}

/-- The program of the nodes of a text. -/
def finished (settings : Settings) (items : List Typed) (frameSize : Nat) : Program :=
  let p : Program := ⟨(sequence items).tree, frameSize⟩
  if settings.constantFolding then p.fold else p

/-- The parse of an accepted text, and where it ends. -/
structure Accepted (table : Table) (settings : Settings) (params : List String) (text : String)
    (items : List Typed) (final : State) : Prop where
  done : program (source table settings text) (start settings params text.toList) = .ok items final
  clean : final.diagnostics = #[]
  nothing : final.left = []
  faultless : ∀ l ∈ lexemes settings text, ∃ t, l.content = .ok t

theorem compile_of_program {items : List Typed} {final : State}
    (done : program (source table settings text) (start settings params text.toList) =
      .ok items final) (clean : final.diagnostics = #[]) :
    compile table settings params text = .ok (finished settings items final.frameSize) := by
  rw [compile, parse_of_program done, clean]
  rfl

theorem exists_accepted (kept : 0 < settings.maxErrors) {p : Program}
    (compiled : compile table settings params text = .ok p) : ∃ items final,
    Accepted table settings params text items final ∧
      p = finished settings items final.frameSize := by
  obtain ⟨es, final, reading⟩ := reading_exists table params text kept
  have none : notes es = [] := by
    rw [← reading.errors_eq kept, errors_eq_nil kept]
    exact ⟨p, compiled⟩
  have taken := reading.takings_eq kept none
  have clean : final.diagnostics = #[] :=
    Array.toList_eq_nil_iff.mp ((reading.diagnostics kept).trans none)
  obtain ⟨items, done⟩ := reading.done
  refine ⟨items, final, ⟨done, clean, reading.nothing, fun l inside =>
    exists_token_of_mem_takings (taken ▸ inside)⟩, ?_⟩
  rw [compile_of_program done clean] at compiled
  exact (Except.ok.inj compiled).symm

theorem slots_parameterScope (first : Nat) (params : List String) :
    (parameterScope first params).map (fun e => e.2.slot) = List.range' first params.length := by
  induction params generalizing first with
  | nil => rfl
  | cons name names ih =>
      rw [parameterScope, List.map_cons, ih]
      rfl

namespace Accepted

variable {items : List Typed} {final : State}
  (accepted : Accepted table settings params text items final)

include accepted

theorem sound : Sound params.length (start settings params text.toList) := by
  have slots : ((start settings params text.toList).scopes.flatten.map fun e => e.2.slot) =
      List.range' 0 params.length := by
    simpa [start] using slots_parameterScope 0 params
  have below : ∀ e ∈ (start settings params text.toList).scopes.flatten,
      e.2.slot < params.length := fun e inside => by
    have listed := List.mem_map_of_mem (f := fun e => e.2.slot) inside
    rw [slots, List.mem_range'_1] at listed
    omega
  exact {
    faultless := accepted.faultless
    below := below
    distinct := slots ▸ List.nodup_range'
    usable := fun e inside low => absurd (below e inside) (Nat.not_lt.mpr low)
    clean := rfl }

/-- What a text mentions, with what its versions come to. -/
theorem tells {ι : Type} (c : Sides ι) (variants : c.Variants)
    (same : c.source = source table settings text) (words : ι → Nat → Option String)
    (s' : ι → State)
    (copies : ∀ i, Copy c words i (start settings params text.toList) (s' i)) :
    ∃ ms, Recital params.length (start settings params text.toList) ms final ∧
      ∀ i, Accords c words i ms → Told c words i ms (items.map (Typed.rename (c.naming i))) final
        (blindProgram (c.others i) (c.unknown i) (s' i)) := by
  have faithful : Faithful c words params.length (program c.source) _ :=
    (Twins.program c).faithful variants
  obtain ⟨ms, recital, told⟩ := faithful.tells _ _ _ accepted.sound (same ▸ accepted.done)
    accepted.clean s' (fun _ => True) fun i _ => copies i
  exact ⟨ms, recital, fun i accords => told i trivial accords⟩

end Accepted

end MathScript.Compile
