import MathScript.Proofs.Passage

/-!
In which order diagnostics are put down. A fault is put down where it is passed, and looking runs
ahead of taking; a statement that fails is put down where it, or one of its parts, began. So two
diagnostics are out of order only if the earlier one is a fault that was looked at ahead of time,
or stands inside of a list of statements that the statement of the later one holds.
-/

namespace MathScript.Parse

/-- A list of statements starts from `first` on and no later than `last`. -/
def Opened (given : List Lexeme) (first last : Nat) : Prop :=
  ∃ position t, ⟨position, .ok t⟩ ∈ given ∧ opening t = true ∧ first ≤ position ∧ position ≤ last

/-- In the order of the text, but for a fault or the inside of a list in front of what stands
around it. -/
def InTurn (given : List Lexeme) (d d' : Diagnostic) : Prop :=
  d.position ≤ d'.position ∨
    d'.category ≠ .lexer ∧ (d.category = .lexer ∨ Opened given d'.position d.position)

variable (source : Source) (given : List Lexeme)

/-- Where the diagnostics of a passage stand, and that they come in turn. -/
structure InSequence (list : Bool) (b : State) (es : List Entry) (s : State) : Prop where
  front : b.front source ≤ s.front source
  edge : b.edge source ≤ s.edge source
  late : ∀ d ∈ notes es, b.front source ≤ d.position ∧
    (d.category = .lexer → b.edge source ≤ d.position)
  early : ∀ d ∈ notes es, (d.category ≠ .lexer → d.position ≤ s.front source) ∧
    (d.category = .lexer → d.position ≤ s.edge source)
  sheltered : list = false → ∀ d ∈ notes es, d.category ≠ .lexer →
    Opened given (b.front source) d.position
  pairs : (notes es).Pairwise (InTurn given)

variable {source} {given}

/-! ### Fronts -/

section

variable (text : Given source given) {ls ls' : List Lexeme}

include text

theorem startOf_le (inside : ls.Sublist given) : startOf source ls ≤ utf8Length source.text := by
  cases ls with
  | nil => exact Nat.le_refl _
  | cons l ls => exact text.inside l (inside.subset List.mem_cons_self)

/-- What is left of lexemes starts no earlier. -/
theorem startOf_mono (inside : ls.Sublist given) (fewer : ls'.Sublist ls) :
    startOf source ls ≤ startOf source ls' := by
  cases ls with
  | nil => exact Nat.le_of_eq (by rw [List.sublist_nil.mp fewer])
  | cons l ls =>
      cases ls' with
      | nil => exact startOf_le text inside
      | cons l' ls' =>
          have ordered := List.pairwise_cons.mp (text.ordered.sublist inside)
          rcases List.mem_cons.mp (fewer.subset List.mem_cons_self) with rfl | later
          · exact Nat.le_refl _
          · exact ordered.1 l' later

theorem front_le {s : State} (ready : Ready source given s) :
    s.front source ≤ utf8Length source.text :=
  startOf_le text ready.left

theorem front_le_edge {s : State} (ready : Ready source given s) :
    s.front source ≤ s.edge source :=
  startOf_mono text ready.left s.rest_sublist

end

theorem position_locate {position : Nat} (inside : position ≤ utf8Length source.text)
    (cause : Cause) : (Diagnostic.locate source.text position cause).position = position :=
  Nat.min_eq_left inside

namespace InSequence

variable {list : Bool} {b m s : State} {took : Bool} {es es' : List Entry}

theorem toList (sequence : InSequence source given false b es s) :
    InSequence source given true b es s :=
  { sequence with sheltered := by simp }

/-- Nothing is put down. -/
theorem silent (text : Given source given) (ready : Ready source given b)
    (moved : Moved source given b took es s) (none : notes es = []) :
    InSequence source given list b es s where
  front := startOf_mono text ready.left moved.left
  edge := startOf_mono text (b.rest_sublist.trans ready.left) moved.rest
  late := by simp [none]
  early := by simp [none]
  sheltered := by simp [none]
  pairs := by simp [none]

/-- What is put down later stands behind what was put down, or else the first is a fault. -/
theorem inTurn (first : InSequence source given list b es m)
    (second : InSequence source given list m es' s) :
    ∀ d ∈ notes es, ∀ d' ∈ notes es', InTurn given d d' := by
  intro d before d' after
  obtain ⟨plain, fault⟩ := first.early d before
  obtain ⟨behind, passed⟩ := second.late d' after
  by_cases lexical : d.category = .lexer
  · by_cases lexical' : d'.category = .lexer
    · exact .inl (Nat.le_trans (fault lexical) (passed lexical'))
    · exact .inr ⟨lexical', .inl lexical⟩
  · exact .inl (Nat.le_trans (plain lexical) behind)

theorem trans (first : InSequence source given list b es m)
    (second : InSequence source given list m es' s) :
    InSequence source given list b (es ++ es') s where
  front := Nat.le_trans first.front second.front
  edge := Nat.le_trans first.edge second.edge
  late := by
    intro d inside
    rcases List.mem_append.mp (notes_append ▸ inside) with before | after
    · exact first.late d before
    · obtain ⟨behind, passed⟩ := second.late d after
      exact ⟨Nat.le_trans first.front behind, fun lexical =>
        Nat.le_trans first.edge (passed lexical)⟩
  early := by
    intro d inside
    rcases List.mem_append.mp (notes_append ▸ inside) with before | after
    · obtain ⟨plain, fault⟩ := first.early d before
      exact ⟨fun other => Nat.le_trans (plain other) second.front, fun lexical =>
        Nat.le_trans (fault lexical) second.edge⟩
    · exact second.early d after
  sheltered := by
    intro statement d inside other
    rcases List.mem_append.mp (notes_append ▸ inside) with before | after
    · exact first.sheltered statement d before other
    · obtain ⟨position, t, there, opens, behind, front⟩ := second.sheltered statement d after other
      exact ⟨position, t, there, opens, Nat.le_trans first.front behind, front⟩
  pairs := by
    rw [notes_append]
    exact List.pairwise_append.mpr ⟨first.pairs, second.pairs, first.inTurn second⟩

/-- A fault is put down where it stands. -/
theorem fault {position : Nat} {cause : Cause} {rest : List Lexeme} (text : Given source given)
    (ready : Ready source given s) (next : s.rest = ⟨position, .error cause⟩ :: rest)
    (moved : Moved source given s took
      [.noted (Diagnostic.locate source.text position cause)] m) :
    InSequence source given list s [.noted (Diagnostic.locate source.text position cause)] m := by
  have there : ⟨position, .error cause⟩ ∈ given :=
    ready.left.subset (s.rest_sublist.subset (next ▸ List.mem_cons_self))
  have lexical : (Diagnostic.locate source.text position cause).category = .lexer :=
    text.lexical _ there cause rfl
  have edge : s.edge source = position := by rw [State.edge, next, startOf]
  have placed : (Diagnostic.locate source.text position cause).position = s.edge source :=
    (position_locate (text.inside _ there) cause).trans edge.symm
  have front := front_le_edge text ready
  have further : s.edge source ≤ m.edge source :=
    startOf_mono text (s.rest_sublist.trans ready.left) moved.rest
  refine ⟨startOf_mono text ready.left moved.left, further, ?_, ?_, ?_, by simp⟩
  · simp only [notes_noted, notes_nil, List.forall_mem_singleton, placed]
    exact ⟨front, fun _ => Nat.le_refl _⟩
  · simp only [notes_noted, notes_nil, List.forall_mem_singleton, placed]
    exact ⟨fun other => absurd lexical other, fun _ => further⟩
  · simp [lexical]

theorem act {m : State} (text : Given source given) (ready : Ready source given s)
    (act : Act source s took es m) : InSequence source given list s es m := by
  have moved := act.moved ready
  cases act with
  | look => exact silent text ready moved rfl
  | fault next => exact fault text ready next moved
  | take => exact silent text ready moved rfl
  | turn => exact silent text ready moved rfl

theorem acts (text : Given source given) (ready : Ready source given b)
    (acts : Acts source b took es s) : InSequence source given list b es s := by
  induction acts with
  | refl => exact .silent text ready (.refl ready) rfl
  | step before act ih => exact (ih ready).trans (.act text (before.moved ready).ready act)

/-- The list behind an opening token shelters what is put down in it. -/
theorem nest {list : Bool} {position : Nat} {t : Token} {ahead : List (Nat × Token)}
    (text : Given source given) (ready : Ready source given s)
    (next : s.ahead = (position, t) :: ahead) (opens : opening t = true)
    (inner : InSequence source given true (s.behind t ahead) es m) :
    InSequence source given list s (.taken position t :: es) m := by
  have taken : InSequence source given true s [.taken position t] (s.behind t ahead) :=
    act text ready (.take next)
  have all : InSequence source given true s (.taken position t :: es) m := taken.trans inner
  refine { all with sheltered := fun _ d inside _ => ?_ }
  have front : s.front source = position := State.front_ahead next
  have there : ⟨position, .ok t⟩ ∈ given :=
    ready.left.subset (State.left_ahead next ▸ List.mem_cons_self)
  exact ⟨position, t, there, opens, Nat.le_of_eq front,
    front ▸ Nat.le_trans taken.front (inner.late d inside).1⟩

/-- A statement that began at `b` fails, with a diagnostic at the front of `m`. -/
theorem failed {cause : Cause} {es₁ es₂ : List Entry} {s' : State} (text : Given source given)
    (readyM : Ready source given m) (readyS : Ready source given s) (proper : cause.isProper = true)
    (open' : s.full source.limits.errors = false)
    (first : InSequence source given false b es₁ m)
    (second : InSequence source given false m es₂ s)
    (record : s' = s.record source.limits.errors
      (Diagnostic.locate source.text (m.front source) cause)) :
    InSequence source given true b
      (es₁ ++ es₂ ++ [.noted (Diagnostic.locate source.text (m.front source) cause)]) s' := by
  have recorded : Moved source given s true
      [.noted (Diagnostic.locate source.text (m.front source) cause)] s' :=
    record ▸ .record readyS open'
  have placed : (Diagnostic.locate source.text (m.front source) cause).position = m.front source :=
    position_locate (front_le text readyM) cause
  have other : (Diagnostic.locate source.text (m.front source) cause).category ≠ .lexer :=
    Cause.category_ne_lexer proper
  have further : InSequence source given true s [] s' :=
    { front := startOf_mono text readyS.left recorded.left
      edge := startOf_mono text (s.rest_sublist.trans readyS.left) recorded.rest
      late := by simp
      early := by simp
      sheltered := by simp
      pairs := by simp }
  -- Up to the diagnostic the round is in sequence; the diagnostic goes back to the front of `m`.
  have round := (first.trans second).toList.trans further
  rw [List.append_nil] at round
  generalize Diagnostic.locate source.text (m.front source) cause = d at placed other
  refine { round with
    late := fun e inside => ?_
    early := fun e inside => ?_
    sheltered := by simp
    pairs := ?_ }
  · rcases List.mem_append.mp (notes_append ▸ inside) with before | last
    · exact round.late e before
    · obtain rfl := List.mem_singleton.mp last
      exact ⟨placed ▸ first.front, fun lexical => absurd lexical other⟩
  · rcases List.mem_append.mp (notes_append ▸ inside) with before | last
    · exact round.early e before
    · obtain rfl := List.mem_singleton.mp last
      exact ⟨fun _ => placed ▸ Nat.le_trans second.front further.front,
        fun lexical => absurd lexical other⟩
  · rw [notes_append]
    refine List.pairwise_append.mpr ⟨round.pairs, by simp, fun e before e' last => ?_⟩
    obtain rfl := List.mem_singleton.mp last
    by_cases lexical : e.category = .lexer
    · exact .inr ⟨other, .inl lexical⟩
    · rcases List.mem_append.mp (notes_append ▸ before) with early | late
      · exact .inl (placed ▸ (first.early e early).1 lexical)
      · exact .inr ⟨other, .inr (placed ▸ second.sheltered rfl e late lexical)⟩

/-- One diagnostic again and again, at the front. -/
theorem stuck {position count : Nat} {t : Token} {ahead : List (Nat × Token)} {cause : Cause}
    {s' : State} (text : Given source given) (ready : Ready source given s)
    (proper : cause.category ≠ .lexer) (next : s.ahead = (position, t) :: ahead)
    (none : s'.left = []) :
    InSequence source given true s
      (List.replicate count (.noted (Diagnostic.locate source.text position cause))) s' := by
  have front : s.front source = position := State.front_ahead next
  have inside : position ≤ utf8Length source.text := front ▸ front_le text ready
  have placed : (Diagnostic.locate source.text position cause).position = s.front source :=
    (position_locate inside cause).trans front.symm
  have last : s'.front source = utf8Length source.text := by rw [State.front, none, startOf]
  have edge : s'.edge source = utf8Length source.text := by
    have rest : s'.rest = [] := List.sublist_nil.mp (none ▸ s'.rest_sublist)
    rw [State.edge, rest, startOf]
  have same : ∀ d ∈ notes (List.replicate count
      (.noted (Diagnostic.locate source.text position cause))),
      d.category = cause.category ∧ d.position = s.front source := by
    intro d inside
    rw [notes_replicate] at inside
    obtain rfl := List.eq_of_mem_replicate inside
    exact ⟨rfl, placed⟩
  refine ⟨?_, ?_, fun d inside => ?_, fun d inside => ?_, by simp, ?_⟩
  · rw [last]
    exact front_le text ready
  · rw [edge]
    exact startOf_le text (s.rest_sublist.trans ready.left)
  · obtain ⟨category, front⟩ := same d inside
    exact ⟨Nat.le_of_eq front.symm, fun lexical => absurd (category ▸ lexical) proper⟩
  · obtain ⟨category, front⟩ := same d inside
    refine ⟨fun _ => ?_, fun lexical => absurd (category ▸ lexical) proper⟩
    rw [front, last]
    exact front_le text ready
  · rw [notes_replicate]
    exact List.pairwise_replicate.mpr (.inr (.inl (Nat.le_refl _)))

end InSequence

/-- The diagnostics of a passage come in turn. -/
theorem Passage.inSequence {list took : Bool} {b s : State} {es : List Entry}
    (text : Given source given) (passage : Passage source list b took es s)
    (ready : Ready source given b) : InSequence source given list b es s := by
  induction passage with
  | refl => exact .silent text ready (.refl ready) rfl
  | act before act ih =>
      exact (ih ready).trans (.act text (before.moved ready).ready act)
  | nest before next opens inner ih ihInner =>
      have readyS := (before.moved ready).ready
      have take : Act source _ _ _ _ := .take next
      have readyT := (take.moved readyS).ready
      exact (ih ready).trans (.nest text readyS next opens (ihInner readyT))
  | failed before first second proper open' skipped progress ih ihFirst ihSecond =>
      have readyB := (before.moved ready).ready
      have readyM := (first.moved readyB).ready
      have readyS := (second.moved readyM).ready
      have round := InSequence.failed text readyM readyS proper open' (ihFirst readyB)
        (ihSecond readyM) rfl
      have skipping : InSequence source given true _ _ _ :=
        .acts text (Moved.record readyS open').ready skipped
      simpa using (ih ready).trans (round.trans skipping)
  | stuck before next ends deep open' size diagnostics none ih =>
      subst deep
      exact (ih ready).trans
        (.stuck text (before.moved ready).ready (by simp [Cause.category]) next none)

end MathScript.Parse
