import MathScript.Proofs.Registry

/-!
What is left when a compositor cannot take a function back. It forgets the function before it asks
the table for the name, and a table that refuses keeps the name: so a refusal leaves the table as it
was, but of the compositor only what it did not know anyway.
-/

namespace MathScript

theorem Table.remove_error_iff {t : Table} {name : String} {e : SymbolError} :
    t.remove name = .error e ↔
      (t.immutable = true ∧ e = .immutable) ∨
        (t.immutable = false ∧ t.contains name = false ∧ e = .notFound name) := by
  unfold remove
  cases t.immutable <;> cases t.contains name <;> simp [eq_comm (b := e)]

namespace Registry

variable {r r' : Registry} {owner : Nat} {name : String}

/-- The registry in which a compositor does not know the name any more. -/
def forget (r : Registry) (owner : Nat) (name : String) : Registry :=
  let c := r.compositor owner
  r.withCompositor owner { c with known := Named.erase name c.known }

theorem find?_forget (r : Registry) (owner : Nat) (name key : String) :
    ((r.forget owner name).compositor owner).find? key =
      if key = name then none else (r.compositor owner).find? key := by
  simp only [forget, withCompositor, if_pos, Compositor.find?]
  split
  · next same => rw [same, Named.lookup_erase_self]
  · next different => rw [Named.lookup_erase_of_ne different]

theorem withCompositor_self (r : Registry) (owner : Nat) :
    r.withCompositor owner (r.compositor owner) = r := by
  have same : (fun other => if other = owner then r.compositor owner else r.compositor other) =
      r.compositor := by
    funext other
    split
    · next here => rw [here]
    · rfl
  rw [withCompositor, same]

theorem undefine_unknown (unknown : (r.compositor owner).find? name = none) :
    perform (.undefine owner name) r = .error (.symbol (.notFound name)) r := by
  simp only [perform, Compositor.remove, unknown, withCompositor_self]

/-- A name that is known is forgotten even where the table refuses to let it go. -/
theorem undefine_known {n : Nat} (known : (r.compositor owner).find? name = some n)
    {e : SymbolError} (refused : r.table.remove name = .error e) :
    perform (.undefine owner name) r = .error (.symbol e) (r.forget owner name) := by
  simp only [perform, Compositor.remove, known, refused, forget]

/-- The two ways in which a compositor refuses to take back a name: it does not know it, and nothing
changes; or it knows it, forgets it, and the table does not let it go. -/
theorem undefine_error {e : Failure} (refused : perform (.undefine owner name) r = .error e r') :
    ((r.compositor owner).find? name = none ∧ e = .symbol (.notFound name) ∧ r' = r) ∨
      ((r.compositor owner).find? name ≠ none ∧ r' = r.forget owner name ∧
        ∃ e', r.table.remove name = .error e' ∧ e = .symbol e') := by
  cases known : (r.compositor owner).find? name with
  | none =>
      rw [undefine_unknown known] at refused
      obtain ⟨rfl, rfl⟩ := EStateM.Result.error.inj refused
      exact .inl ⟨rfl, rfl, rfl⟩
  | some n =>
      cases removed : r.table.remove name with
      | ok t =>
          simp only [perform, Compositor.remove, known, removed] at refused
          cases refused
      | error e' =>
          rw [undefine_known known removed] at refused
          obtain ⟨rfl, rfl⟩ := EStateM.Result.error.inj refused
          exact .inr ⟨by simp, rfl, e', rfl, rfl⟩

/-- A refused removal leaves the table, the functions and all other compositors as they were. The
compositor itself knows what it knew if and only if it did not know the name. Asked once more it
does not know the name and changes nothing; so it gives the same reason if and only if it did not
know the name before or the table is not immutable. -/
theorem refused_withdrawal_keeps_iff {e : Failure}
    (refused : perform (.undefine owner name) r = .error e r') :
    (r'.table = r.table ∧ r'.functions = r.functions ∧
      ∀ other, other ≠ owner → r'.compositor other = r.compositor other) ∧
    ((∀ key, (r'.compositor owner).find? key = (r.compositor owner).find? key) ↔
      (r.compositor owner).find? name = none) ∧
    perform (.undefine owner name) r' = .error (.symbol (.notFound name)) r' ∧
    (perform (.undefine owner name) r' = .error e r' ↔
      (r.compositor owner).find? name = none ∨ r.table.immutable = false) := by
  rcases undefine_error refused with ⟨unknown, rfl, rfl⟩ | ⟨known, rfl, e', kept, rfl⟩
  · exact ⟨⟨rfl, rfl, fun _ _ => rfl⟩, by simp [unknown], undefine_unknown unknown,
      by simp [unknown, undefine_unknown unknown]⟩
  · have forgotten : ((r.forget owner name).compositor owner).find? name = none := by
      rw [find?_forget, if_pos rfl]
    have again := undefine_unknown forgotten
    refine ⟨⟨rfl, rfl, fun other different => if_neg different⟩, ?_, again, ?_⟩
    · constructor
      · intro same
        rw [← same name, forgotten]
      · exact fun unknown => absurd unknown known
    · rw [again]
      rcases Table.remove_error_iff.mp kept with ⟨frozen, rfl⟩ | ⟨changeable, -, rfl⟩
      · simp [known, frozen]
      · simp [changeable]

/-- The function of an immutable table is forgotten where it cannot be taken out, and the second
answer is another one. -/
theorem refused_withdrawal_keeps_iff_of_frozen :
    let r := empty.run [.define 0 [⟨"f", [], "1"⟩], .freeze]
    let r' := r.forget 0 "f"
    perform (.undefine 0 "f") r = .error (.symbol .immutable) r' ∧
    r'.table = r.table ∧ r'.table.contains "f" = true ∧
    (¬ ∀ key, (r'.compositor 0).find? key = (r.compositor 0).find? key) ∧
    perform (.undefine 0 "f") r' = .error (.symbol (.notFound "f")) r' ∧
    perform (.undefine 0 "f") r' ≠ .error (.symbol .immutable) r' := by
  intro r r'
  have known : (r.compositor 0).find? "f" = some 0 := by decide +kernel
  have frozen : r.table.immutable = true := by decide +kernel
  have there : r.table.contains "f" = true := by decide +kernel
  have refused : perform (.undefine 0 "f") r = .error (.symbol .immutable) r' :=
    undefine_known known (Table.remove_error_iff.mpr (.inl ⟨frozen, rfl⟩))
  obtain ⟨⟨table_eq, -, -⟩, kept, again, alike⟩ := refused_withdrawal_keeps_iff refused
  refine ⟨refused, table_eq, table_eq ▸ there, ?_, again, ?_⟩
  · rw [kept, known]
    simp
  · rw [Ne, alike, known, frozen]
    simp

end Registry

end MathScript
