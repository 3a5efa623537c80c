import MathScript.Proofs.Passage

/-!
How many diagnostics there can be. Every diagnostic is charged to a lexeme: a fault to itself, the
diagnostic of a statement to a token that was taken for it or skipped behind it. There is one
exception: at the limit of nesting a statement fails without a token taken, and in front of a token
that ends another list none is skipped either. Then one diagnostic is put down until no more are
kept.
-/

namespace MathScript.Parse

/-- There is a lexeme for every diagnostic, besides those that are left. -/
def Charged (b : State) (took : Bool) (es : List Entry) (s : State) : Prop :=
  (notes es).length + s.left.length + took.toNat ≤ b.left.length

/-- There is a lexeme for every diagnostic but for those at the end, which are all the same: at
the limit of nesting, in front of a token that ends another list. -/
def Jammed (source : Source) (given : List Lexeme) (b : State) (es : List Entry) (s : State) :
    Prop :=
  s.full source.limits.errors = true ∧ ∃ es₁ count position t, ending t = true ∧
    ⟨position, .ok t⟩ ∈ given ∧ (notes es₁).length < b.left.length ∧
    es = es₁ ++ List.replicate count
      (.noted (Diagnostic.locate source.text position (.nestedTooDeep source.limits.nesting)))

variable {source : Source} {given : List Lexeme}
variable {list took took' : Bool} {b m s : State} {es es' : List Entry}

/-! ### No more is kept -/

theorem Ready.bare (ready : Ready source given s) (full : s.full source.limits.errors = true) :
    s.ahead = [] ∧ s.rest = [] := by
  simpa [State.left] using ready.spent full

/-- Where no more diagnostics are kept, nothing is on record. -/
theorem Act.still (act : Act source s took es m) (ready : Ready source given s)
    (full : s.full source.limits.errors = true) :
    es = [] ∧ m.full source.limits.errors = true := by
  obtain ⟨ahead, rest⟩ := ready.bare full
  cases act with
  | look next => simp [rest] at next
  | fault next => simp [rest] at next
  | take next => simp [ahead] at next
  | turn _ _ diagnostics => exact ⟨rfl, by rwa [State.full, diagnostics]⟩

theorem Passage.still (passage : Passage source list b took es s) (ready : Ready source given b)
    (full : b.full source.limits.errors = true) : s.full source.limits.errors = true := by
  induction passage with
  | refl => exact full
  | act before act ih => exact (act.still (before.moved ready).ready (ih ready full)).2
  | nest before next _ _ ih =>
      simp [((before.moved ready).ready.bare (ih ready full)).1] at next
  | failed before first second _ open' _ _ ih ihFirst ihSecond =>
      have readyB := (before.moved ready).ready
      have readyM := (first.moved readyB).ready
      simp [ihSecond readyM (ihFirst readyB (ih ready full))] at open'
  | stuck before next _ _ _ _ _ _ ih =>
      simp [((before.moved ready).ready.bare (ih ready full)).1] at next

/-! ### Charges -/

theorem Charged.trans (first : Charged b took es m) (second : Charged m took' es' s) :
    Charged b (took || took') (es ++ es') s := by
  have flags : (took || took').toNat ≤ took.toNat + took'.toNat := by
    cases took <;> cases took' <;> decide
  rw [Charged] at *
  rw [notes_append, List.length_append]
  omega

theorem Act.charged (act : Act source s took es m) (ready : Ready source given s) :
    Charged s took es m := by
  have moved := act.moved ready
  cases act with
  | @look position t rest next => simp [Charged, State.left, next]
  | @fault position cause rest next =>
      have open' : State.full { s with rest := rest } source.limits.errors = false :=
        ready.open' (by simp [State.left, next])
      obtain ⟨-, full | more⟩ := State.record_open open'
        (Diagnostic.locate source.text position cause)
      · simp [Charged, State.left, full.2, next]
        omega
      · simp [Charged, State.left, more.2, next]
        omega
  | @take position t ahead next =>
      simp [Charged, State.left, State.behind, next]
  | turn ahead rest _ => simp [Charged, State.left, ahead, rest]

theorem Acts.charged (acts : Acts source b took es s) (ready : Ready source given b) :
    Charged b took es s := by
  induction acts with
  | refl => simp [Charged]
  | step before act ih => exact (ih ready).trans (act.charged (before.moved ready).ready)

theorem Jammed.later {took : Bool} (first : Charged b took es m)
    (second : Jammed source given m es' s) :
    Jammed source given b (es ++ es') s := by
  obtain ⟨full, es₁, count, position, t, ends, there, fewer, rfl⟩ := second
  refine ⟨full, es ++ es₁, count, position, t, ends, there, ?_, (List.append_assoc ..).symm⟩
  rw [Charged] at first
  rw [notes_append, List.length_append]
  omega

/-- A failed statement is charged to a token of its own. -/
theorem charged_failed {t₁ t₂ t₃ : Bool} {s₀ s' : State} {es₁ es₂ es₃ : List Entry}
    {d : Diagnostic} (ready : Ready source given s) (first : Charged s₀ t₁ es₁ m)
    (second : Charged m t₂ es₂ s) (open' : s.full source.limits.errors = false)
    (skipped : Charged (s.record source.limits.errors d) t₃ es₃ s')
    (progress : (t₁ || t₂ || t₃) = true ∨
      s.left ≠ [] ∧ (s.record source.limits.errors d).left = []) :
    Charged s₀ false (es₁ ++ es₂ ++ .noted d :: es₃) s' := by
  have fewer := (Moved.record ready (d := d) open').left.length_le
  rw [Charged] at *
  simp only [notes_append, notes_noted, List.length_append, List.length_cons,
    Bool.toNat_false] at *
  rcases progress with took | ⟨some, none⟩
  · have one : 1 ≤ t₁.toNat + t₂.toNat + t₃.toNat := by
      revert took
      cases t₁ <;> cases t₂ <;> cases t₃ <;> decide
    omega
  · have one := List.length_pos_iff.mpr some
    rw [none, List.length_nil] at skipped
    omega

/-- The diagnostics of a passage are charged to lexemes, or the last one was repeated until no
more were kept. -/
theorem Passage.charged (passage : Passage source list b took es s)
    (ready : Ready source given b) :
    Charged b took es s ∨ Jammed source given b es s := by
  -- Behind a jam no more is kept and nothing is left, so that whatever follows does nothing.
  induction passage with
  | refl => exact .inl (by simp [Charged])
  | act before act ih =>
      have readyS := (before.moved ready).ready
      rcases ih ready with charged | ⟨full, jam⟩
      · exact .inl (charged.trans (act.charged readyS))
      · obtain ⟨rfl, still⟩ := act.still readyS full
        exact .inr ⟨still, by simpa using jam⟩
  | @nest _ _ _ _ _ _ _ _ position t ahead before next opens inner ih ihInner =>
      have readyS := (before.moved ready).ready
      have take : Act source _ true [.taken position t] _ := .take next
      have readyT := (take.moved readyS).ready
      rcases ih ready with charged | ⟨full, -⟩
      · have taken := charged.trans (take.charged readyS)
        rcases ihInner readyT with charged' | jam
        · have all := taken.trans charged'
          simp only [Bool.or_true, Bool.true_or] at all
          exact .inl (by simpa using all)
        · exact .inr (by simpa using jam.later taken)
      · simp [(readyS.bare full).1] at next
  | failed before first second proper open' skipped progress ih ihFirst ihSecond =>
      have readyB := (before.moved ready).ready
      have readyM := (first.moved readyB).ready
      have readyS := (second.moved readyM).ready
      rcases ih ready with charged | ⟨full, -⟩
      · rcases ihFirst readyB with charged₁ | ⟨full, -⟩
        · rcases ihSecond readyM with charged₂ | ⟨full, -⟩
          · have charged₃ := skipped.charged (Moved.record readyS open').ready
            have round := charged_failed readyS charged₁ charged₂ open' charged₃ progress
            exact .inl (by simpa using charged.trans round)
          · simp [full] at open'
        · simp [second.still readyM full] at open'
      · simp [second.still readyM (first.still readyB full)] at open'
  | @stuck _ _ s s' _ position count t _ _ before next ends deep open' size _ none ih =>
      have readyS := (before.moved ready).ready
      have left := State.left_ahead next
      subst deep
      rcases ih ready with charged | ⟨full, -⟩
      · refine .inr ⟨?_, _, count, position, t, ends, ?_, ?_, rfl⟩
        · simp [State.full, size]
        · exact readyS.left.subset (left ▸ List.mem_cons_self)
        · rw [Charged, left, List.length_cons] at charged
          omega
      · simp [full] at open'

end MathScript.Parse
