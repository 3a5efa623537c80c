import MathScript.Proofs.Unfolding

/-!
Static kinds. The kind of a tree is the kind the parser gives to its node. A node that completes
yields null or a value of its kind, unless the evaluation has gone astray: a loop yields what
its body yields, of whatever kind, though it counts as a number, and a negation or an
element-wise function makes a number of null where it counts as a vector. There is no third way.
-/

namespace MathScript

open Parse

/-- Every node of an evaluation keeps the promise of its kind if and only if nothing in the
evaluation is astray. The nodes are those the parser built; what a folded node yields is what
the node it was made of yields. -/
theorem kinds_kept_iff_clean {w w' : World} (reached : w.Reached) (later : w'.Follows w)
    {table text : String} {settings : Settings} {program : Program}
    (compiled : compile (w.table table) settings [] text = .ok program)
    (check : Option Check) (limit rounds : Nat) (store : Store) :
    (∃ plain q, parse (w.table table) settings [] text = .ok q ∧
      Unfolds (w'.host check limit rounds) plain program q ∧
      Echoes ((w'.host check limit rounds).log program store) (plain.log q store) ∧
      ((∀ m ∈ plain.log q store, m.Sound) ↔ Clean (plain.log q store))) ∧
    ∀ (source : Source) (levels : Nat) (s : State), s.Tidy →
      Ends (expression source (operand source levels)) s
        (fun n s' => n.kind = n.tree.kind ∧ s'.Tidy) fun _ s' => s'.Tidy := by
  constructor
  · obtain ⟨plain, q, parsed, unfolds, kept⟩ := reached.unfolds later compiled check limit rounds
    refine ⟨plain, q, parsed, unfolds, unfolds.echoes store, ?_⟩
    constructor
    · intro all m inside astray
      obtain ⟨n, logged, broken⟩ := (kept store).stray m inside astray
      exact broken (all n logged)
    · exact (kept store).sound
  · intro source levels s tidy
    exact expression_kind source levels tidy

/-- A loop that counts as a number and yields a vector. -/
theorem kinds_kept_iff_clean_of_repeat :
    let host := World.empty.host none 100 1000
    ∃ program, compile (World.empty.table "t") {} [] "repeat {1, 2} until (1)" = .ok program ∧
      ∃ plain q, parse (World.empty.table "t") {} [] "repeat {1, 2} until (1)" = .ok q ∧
        Unfolds host plain program q ∧
        Echoes (host.log program Store.empty) (plain.log q Store.empty) ∧
        ((∀ m ∈ plain.log q Store.empty, m.Sound) ↔ Clean (plain.log q Store.empty)) := by
  intro host
  have accepted : (compile (World.empty.table "t") {} []
      "repeat {1, 2} until (1)").toOption.isSome = true := by
    decide +kernel
  obtain ⟨program, compiled⟩ := compile_accepted accepted
  exact ⟨program, compiled,
    (kinds_kept_iff_clean ⟨[], rfl⟩ ⟨[], rfl⟩ compiled none 100 1000 Store.empty).1⟩

end MathScript
