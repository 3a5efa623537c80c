import MathScript.Proofs.Built
import MathScript.Proofs.Registering

/-!
The functions a table offers. Every operation on a table takes functions away or adds those it
is told to add, and no others. A table grants the functions it offers, and as long as it is not
immutable to write what it has of the host.
-/

namespace MathScript

/-- Some name of the table stands for the function. -/
def Table.Offers (table : Table) (f : Callable) : Prop :=
  ∃ name, table.find? name = some (.function f)

/-- What a table grants to every text that is compiled against it. What a text may declare is not
up to the table. -/
def Table.Grants (table : Table) : Grant → Prop
  | .call name f => table.find? name = some (.function f)
  | .use name place => ∃ s, table.find? name = some s ∧ Parse.place? s = some place
  | .write => table.immutable = false
  | .declare .. => False

/-- The function is called as it was registered: with as many arguments as it says, or by the
signature its text is read as. -/
def Native.Answers (native : Native) : Callable → Prop
  | .scalar _ arity => ∃ run, native = .scalar arity run
  | .vararg _ => ∃ run, native = .vararg run
  | .generic _ signature =>
      ∃ text run, native = .generic text run ∧ Signature.parse? text = some signature
  | .composed .. => False

def Callable.native? : Callable → Option Nat
  | .scalar n _ | .vararg n | .generic n _ => some n
  | .composed .. => none

variable {t t' : Table} {f : Callable}

namespace Table

theorem not_offers_empty (f : Callable) : ¬ empty.Offers f := by
  rintro ⟨name, found⟩
  cases found

theorem insert_offers {name : String} {s : Symbol} (inserted : t.insert name s = .ok t')
    (offered : t'.Offers f) : t.Offers f ∨ s = .function f := by
  obtain ⟨other, found⟩ := offered
  rw [find?_insert inserted] at found
  split at found
  · exact .inr (Option.some.inj found)
  · exact .inl ⟨other, found⟩

/-- A name that is taken out stands for nothing any more, all others for what they did. -/
theorem erase_offers {name : String}
    (offered : ({ t with entries := Named.erase name t.entries } : Table).Offers f) :
    t.Offers f := by
  obtain ⟨other, found⟩ := offered
  rw [find?_erase] at found
  split at found
  · cases found
  · exact ⟨other, found⟩

theorem remove_offers {name : String} (removed : t.remove name = .ok t')
    (offered : t'.Offers f) : t.Offers f := by
  obtain ⟨-, -, rfl⟩ := remove_ok removed
  exact erase_offers offered

theorem insertNative_offers {name : String} {number : Nat} {native : Native}
    (inserted : t.insertNative name number native = .ok t') (offered : t'.Offers f) :
    t.Offers f ∨ f.native? = some number ∧ native.Answers f := by
  obtain ⟨-, c, called, inserted⟩ := insertNative_ok inserted
  rcases insert_offers inserted offered with old | new
  · exact .inl old
  · cases new
    refine .inr ?_
    cases native with
    | scalar arity run | vararg run =>
        cases called
        exact ⟨rfl, run, rfl⟩
    | generic text run =>
        rw [Native.callable] at called
        split at called
        · cases called
        · next signature parsed =>
            cases called
            exact ⟨rfl, text, run, rfl, parsed⟩

theorem insertNatives_offers {number : Nat} {functions : List (String × Native)}
    (inserted : t.insertNatives number functions = .ok t') (offered : t'.Offers f) :
    t.Offers f ∨ ∃ i e, functions[i]? = some e ∧ f.native? = some (number + i) ∧
      e.2.Answers f := by
  induction functions generalizing t number with
  | nil =>
      cases inserted
      exact .inl offered
  | cons e rest ih =>
      obtain ⟨name, native⟩ := e
      rw [insertNatives_cons] at inserted
      cases first : t.insertNative name number native with
      | error e =>
          rw [first] at inserted
          cases inserted
      | ok middle =>
          rw [first] at inserted
          -- The rest is numbered from the next number on.
          rcases ih inserted with old | ⟨i, e, inside, numbered, answers⟩
          · rcases insertNative_offers first old with older | ⟨numbered, answers⟩
            · exact .inl older
            · exact .inr ⟨0, (name, native), rfl, numbered, answers⟩
          · refine .inr ⟨i + 1, e, inside, ?_, answers⟩
            rw [numbered]
            congr 1
            omega

end Table

namespace Compositor

/-- A group is offered with the numbers of parameters it is written with. -/
theorem Declared.offers {number : Nat} {group : List Definition}
    (declared : Declared t number group t') (offered : t'.Offers f) :
    t.Offers f ∨ ∃ i d, group[i]? = some d ∧ f = .composed (number + i) d.params.length := by
  obtain ⟨name, found⟩ := offered
  by_cases known : name ∈ group.map Definition.name
  · obtain ⟨d, inside, rfl⟩ := List.mem_map.mp known
    obtain ⟨i, found'⟩ := List.mem_iff_getElem?.mp inside
    rw [declared.find?_self found'] at found
    cases found
    exact .inr ⟨i, d, found', rfl⟩
  · rw [declared.find?_other known] at found
    exact .inl ⟨name, found⟩

theorem release_offers {name : String} (offered : (release t name).Offers f) : t.Offers f := by
  by_cases frozen : t.immutable = true
  · rwa [release_of_immutable frozen] at offered
  · rw [release_of_mutable (by simpa using frozen)] at offered
    exact Table.erase_offers offered

theorem releases_offers {names : List String} (offered : (names.foldl release t).Offers f) :
    t.Offers f := by
  induction names generalizing t with
  | nil => exact offered
  | cons name names ih => exact release_offers (ih offered)

end Compositor

end MathScript
