import MathScript.Proofs.Unfolding

/-!
Generic functions. An alternative is chosen for a call once and for all, by the kinds of the
trees of its arguments. What the function is then handed has these kinds too, unless an
argument yields null where it counts as a vector or a string, or has gone astray; so the
alternative accepts what is handed over exactly where no argument that it asks a kind of has
changed its kind.
-/

namespace MathScript

theorem ParamKind.accepts_iff {p : ParamKind} {kind kind' : Kind} (chosen : p.accepts kind = true) :
    p.accepts kind' = true ↔ p = .any ∨ kind' = kind := by
  cases p with
  | any => simp [accepts]
  | exact expected =>
      obtain rfl : expected = kind := by simpa [accepts] using chosen
      simp only [accepts, beq_iff_eq, reduceCtorEq, false_or]
      exact eq_comm

namespace Overload

/-- What the alternative asks of an argument. -/
def tag? (o : Overload) (i : Nat) : Option ParamKind := o.params[i]?.or o.repeats

theorem acceptsTail_iff {repeats : Option ParamKind} {static dynamic : List Kind}
    (chosen : acceptsTail repeats static = true) (same : dynamic.length = static.length) :
    acceptsTail repeats dynamic = true ↔
      ∀ i : Nat, repeats = some .any ∨ dynamic[i]? = static[i]? := by
  cases repeats with
  | none =>
      obtain rfl : static = [] := by simpa [acceptsTail] using chosen
      obtain rfl : dynamic = [] := List.length_eq_zero_iff.mp same
      simp [acceptsTail]
  | some p =>
      simp only [acceptsTail] at chosen ⊢
      induction static generalizing dynamic with
      | nil =>
          obtain rfl : dynamic = [] := List.length_eq_zero_iff.mp same
          simp
      | cons kind static ih =>
          obtain ⟨kind', dynamic, rfl⟩ := List.exists_cons_of_length_eq_add_one same
          rw [List.all_cons, Bool.and_eq_true] at chosen
          rw [List.all_cons, Bool.and_eq_true, ParamKind.accepts_iff chosen.1,
            ih (by simpa using same) chosen.2]
          constructor
          · rintro ⟨here, rest⟩ i
            cases i with
            | zero => simpa using here
            | succ i => simpa using rest i
          · intro all
            exact ⟨by simpa using all 0, fun i => by simpa using all (i + 1)⟩

/-- An alternative that accepts some kinds accepts those it cannot tell from them, and no
others of as many arguments. -/
theorem accepts_iff {params : List ParamKind} {repeats : Option ParamKind}
    {static dynamic : List Kind} (chosen : accepts params repeats static = true)
    (same : dynamic.length = static.length) :
    accepts params repeats dynamic = true ↔
      ∀ i : Nat, tag? ⟨params, repeats⟩ i = some .any ∨ dynamic[i]? = static[i]? := by
  induction params generalizing static dynamic with
  | nil => simpa [accepts, tag?] using acceptsTail_iff chosen same
  | cons p params ih =>
      cases static with
      | nil => cases chosen
      | cons kind static =>
          obtain ⟨kind', dynamic, rfl⟩ := List.exists_cons_of_length_eq_add_one same
          rw [accepts, Bool.and_eq_true] at chosen
          rw [accepts, Bool.and_eq_true, ParamKind.accepts_iff chosen.1,
            ih chosen.2 (by simpa using same)]
          constructor
          · rintro ⟨here, rest⟩ i
            cases i with
            | zero => simpa [tag?] using here
            | succ i => simpa [tag?] using rest i
          · intro all
            exact ⟨by simpa [tag?] using all 0, fun i => by simpa [tag?] using all (i + 1)⟩

end Overload

theorem Signature.resolve_accepts {s : Signature} {kinds : List Kind} {k : Nat}
    (resolved : s.resolve kinds = some k) :
    ∃ o, s.overloads[k]? = some o ∧ Overload.accepts o.params o.repeats kinds = true := by
  obtain ⟨bound, accepts, -⟩ := List.findIdx?_eq_some_iff_getElem.mp resolved
  exact ⟨s.overloads[k], List.getElem?_eq_getElem bound, accepts⟩

/-- The kinds of what a generic function is handed. -/
def handed (values : List Value) : List Kind := values.map fun v => (Param.ofValue v).kind

theorem Value.Fits.handed_iff {v : Value} {kind : Kind} (fits : v.Fits kind) :
    (Param.ofValue v).kind = kind ↔ ¬ (v = .null ∧ kind ≠ .scalar) := by
  rcases fits with rfl | known
  · cases kind <;> simp [Param.ofValue, Param.kind]
  · cases v <;> simp_all [kind?, Param.ofValue, Param.kind]

namespace Moment

/-- The alternative a generic function is called with is one of its own signature and accepts
the kinds of the arguments; it accepts what is handed over if and only if that has these kinds,
but for arguments of which no kind is asked. -/
def Served (natives : Array Registered) (m : Moment) : Prop :=
  match m.event with
  | .offer native k args values => ∃ text run memory signature o,
      natives[native]? = some ⟨.generic text run, memory⟩ ∧
      Signature.parse? text = some signature ∧ signature.overloads[k]? = some o ∧
      Overload.accepts o.params o.repeats (args.map Tree.kind) = true ∧
      (Overload.accepts o.params o.repeats (handed values) = true ↔
        ∀ i : Nat, o.tag? i = some .any ∨ (handed values)[i]? = (args.map Tree.kind)[i]?)
  | _ => True

/-- What is handed over for an argument is of its kind if and only if it is not a null that
stands for a vector or a string. -/
def Supplied (m : Moment) : Prop :=
  match m.event with
  | .offer _ _ args values => ∀ (i : Nat) v a, values[i]? = some v → args[i]? = some a →
      ((Param.ofValue v).kind = a.kind ↔ ¬ (v = .null ∧ a.kind ≠ .scalar))
  | _ => True

theorem Chosen.served {w : World} {m : Moment} (chosen : m.Chosen w.Grants) :
    m.Served w.natives := by
  unfold Chosen at chosen
  unfold Served
  cases event_eq : m.event with
  | offer native k args values =>
      rw [event_eq] at chosen
      obtain ⟨aligned, _, signature, offered, resolved⟩ := chosen
      obtain ⟨n, r, numbered, found, text, run, same, parsed⟩ := offered
      obtain ⟨o, inside, accepts⟩ := Signature.resolve_accepts resolved
      obtain rfl : native = n := Option.some.inj numbered
      obtain ⟨f, memory⟩ := r
      obtain rfl : f = .generic text run := same
      refine ⟨text, run, memory, signature, o, found, parsed, inside, accepts, ?_⟩
      exact Overload.accepts_iff accepts (by simpa [handed] using aligned)
  | touch | place | apply | finish => trivial

theorem Fed.supplied {m : Moment} (fed : m.Fed) : m.Supplied := by
  unfold Fed at fed
  unfold Supplied
  cases event_eq : m.event with
  | offer native k args values =>
      rw [event_eq] at fed
      intro i v a value argument
      have paired : (v, a) ∈ values.zip args :=
        List.mem_of_getElem? (List.getElem?_zip_eq_some.mpr ⟨value, argument⟩)
      exact (fed v a paired).handed_iff
  | touch | place | apply | finish => trivial

end Moment

/-- Whenever a generic function is called, the alternative it is called with accepts what it is
handed exactly where no kind that is asked for has changed since the call was compiled; and while
nothing is astray, only a null that stands for a vector or a string has changed its kind. -/
theorem generic_served {w w' : World} (reached : w.Reached) (later : w'.Follows w)
    {table text : String} {settings : Settings} {program : Program}
    (compiled : compile (w.table table) settings [] text = .ok program)
    (check : Option Check) (limit rounds : Nat) (store : Store) :
    ∃ plain q, parse (w.table table) settings [] text = .ok q ∧
      Unfolds (w'.host check limit rounds) plain program q ∧
      Echoes ((w'.host check limit rounds).log program store) (plain.log q store) ∧
      (∀ m ∈ plain.log q store, m.Served w'.natives) ∧
      (Clean (plain.log q store) → ∀ m ∈ plain.log q store, m.Supplied) := by
  obtain ⟨plain, q, parsed, unfolds, kept⟩ := reached.unfolds later compiled check limit rounds
  refine ⟨plain, q, parsed, unfolds, unfolds.echoes store, ?_, ?_⟩
  · intro m inside
    exact ((kept store).chosen m inside).served
  · intro clean m inside
    exact ((kept store).fed clean m inside).supplied

/-- A function of a vector that is handed a number where its argument yields nothing. -/
theorem generic_served_of_branch :
    let size : Native := .generic "V" fun kept _ params => ⟨.ok 0, params, kept⟩
    let w := World.empty.run
      [.addVector "t" "v" #[], .addScalar "t" "x" 0, .addNatives "t" [("size", size)]]
    let host := w.host none 100 1000
    ∃ program, compile (w.table "t") {} [] "size(if (x) v)" = .ok program ∧
      ∃ plain q, parse (w.table "t") {} [] "size(if (x) v)" = .ok q ∧
        Unfolds host plain program q ∧
        Echoes (host.log program w.store) (plain.log q w.store) ∧
        (∀ m ∈ plain.log q w.store, m.Served w.natives) ∧
        (Clean (plain.log q w.store) → ∀ m ∈ plain.log q w.store, m.Supplied) := by
  intro size w host
  have accepted : (compile (w.table "t") {} [] "size(if (x) v)").toOption.isSome = true := by
    decide +kernel
  obtain ⟨program, compiled⟩ := compile_accepted accepted
  exact ⟨program, compiled, generic_served ⟨_, rfl⟩ ⟨[], rfl⟩ compiled none 100 1000 w.store⟩

end MathScript
