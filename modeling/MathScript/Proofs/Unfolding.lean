import MathScript.Session
import MathScript.Proofs.Erase
import MathScript.Proofs.History

/-!
Evaluations with nothing folded. A program compiled in some state of a world and evaluated in a
later one does what the program does as it was read, among bodies as they were read; so what is
kept in the one evaluation tells of the other.
-/

namespace MathScript

/-- An expression is evaluated in its world as it is found. -/
theorem Expression.host_eq (e : Expression) (w : World) :
    e.host w = w.host (e.watch.map Watch.check) e.limit Expression.rounds := rfl

/-- The program that is evaluated and the bodies that are found, all as they were read. -/
structure Unfolds (host plain : Host) (p q : Program) : Prop where
  host : host.Settles plain
  program : p.Settles q
  bodies : ∀ n b, plain.body? n = some b → b.Read

/-- What is logged of an evaluation is logged of the same evaluation with nothing folded. -/
theorem Unfolds.echoes {host plain : Host} {p q : Program} (unfolds : Unfolds host plain p q)
    (store : Store) : Echoes (host.log p store) (plain.log q store) :=
  Host.log_echoes unfolds.host unfolds.program store

/-- The bodies that are found in a sound world, as they were read. -/
theorem World.Sound.plain {w : World} (sound : w.Sound) (check : Option Check)
    (limit rounds : Nat) :
    ∃ plain : Host, (w.host check limit rounds).Settles plain ∧ plain.Honours w.Grants ∧
      ∀ n b, plain.body? n = some b → b.Read := by
  have bodies : ∀ n, ∃ q : Option Program,
      ((w.host check limit rounds).body? n = none ∧ q = none ∨
        ∃ p p', (w.host check limit rounds).body? n = some p ∧ q = some p' ∧ p.Settles p') ∧
      ∀ p', q = some p' → p'.Read ∧
        ∀ arity, w.Offers (.composed n arity) → p'.BuiltFor w.Grants arity := by
    intro n
    cases found : (w.host check limit rounds).body? n with
    | none => exact ⟨none, .inl ⟨rfl, rfl⟩, by simp⟩
    | some p =>
        obtain ⟨-, q, settles, read, built⟩ := sound.body found
        refine ⟨some q, .inr ⟨p, q, rfl, rfl, settles⟩, ?_⟩
        rintro _ ⟨⟩
        exact ⟨read, built⟩
  obtain ⟨body, spec⟩ := Classical.axiomOfChoice bodies
  refine ⟨{ w.host check limit rounds with body? := body }, ?_, ?_, ?_⟩
  · exact ⟨rfl, rfl, rfl, rfl, fun n => (spec n).1⟩
  · intro _ n arity b offered found
    exact ((spec n).2 b found).2 arity offered
  · intro n b found
    exact ((spec n).2 b found).1

/-- A program compiled in some state of a world and evaluated in a later one, with what is kept
in every evaluation of it. -/
theorem World.Reached.unfolds {w w' : World} (reached : w.Reached) (later : w'.Follows w)
    {table : String} {settings : Settings} {text : String} {p : Program}
    (compiled : compile (w.table table) settings [] text = .ok p)
    (check : Option Check) (limit rounds : Nat) :
    ∃ plain q, parse (w.table table) settings [] text = .ok q ∧
      Unfolds (w'.host check limit rounds) plain p q ∧
      ∀ store, Kept w'.Grants (plain.log q store) := by
  have sound := reached.sound
  have since := later.since sound
  obtain ⟨plain, settles, honours, bodies⟩ := since.sound.plain check limit rounds
  obtain ⟨q, parsed, rfl⟩ := compile_ok compiled
  have built : q.BuiltFor w'.Grants 0 := (parse_built parsed).1.mono fun g granted =>
    since.grows.grants g (World.grants_of_offers (sound.tables table) g granted)
  exact ⟨plain, q, parsed, ⟨settles, q.settle_settles _, bodies⟩, Host.log_kept honours built⟩

end MathScript
