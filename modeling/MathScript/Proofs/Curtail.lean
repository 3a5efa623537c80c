import MathScript.Proofs.Lockstep

/-!
Runs that end alike, and runs cut short. A run is cut short by another if they end alike, or the
one is stopped early where the other goes on, and whatever the other does then, what is known of
the moment of the stop stays true. Both are kept in lockstep, and so are calls.
-/

namespace MathScript

namespace SameEnd

variable {ε σ τ α : Type} {R : σ → τ → Prop} {r : EStateM.Result ε σ α}
  {r' : EStateM.Result ε τ α}

theorem state (same : SameEnd R r r') : R (lastState r) (lastState r') := by
  cases r <;> cases r' <;> simp only [SameEnd] at same
  · exact same.2
  · exact same.2

/-- Where one side stops the other one stops for the same reason. -/
theorem error {e : ε} {t : τ} (same : SameEnd R r (.error e t)) : ∃ s, r = .error e s := by
  cases r with
  | ok a s => exact same.elim
  | error f s => exact ⟨s, by rw [same.1]⟩

end SameEnd

section

variable {σ τ : Type} {R : σ → τ → Prop}

theorem agree_lockstep (R : σ → τ → Prop) :
    Lockstep (fun {α} (x : Flow σ α) (y : Flow τ α) => Agree R x y) where
  done := agree_pure
  stop _ := agree_throw _
  bind := agree_bind
  round last same := Flow.agree_round same last

/-- One run alone keeps a property in lockstep with itself. -/
theorem keeps_lockstep (I : σ → Prop) :
    Lockstep (fun {α} (x : Flow σ α) (_ : Flow σ α) => Keeps I x) where
  done a := keeps_pure a
  stop _ := keeps_throw _
  bind := keeps_bind
  round last kept := Flow.keeps_round kept last

/-- No loop and no call answers it. -/
def Signal.Fatal : Signal → Prop
  | .fault _ | .tired => True
  | .leave _ | .next | .give _ => False

variable {early : Signal → σ → τ → Prop} {α β : Type}

structure Curtails (R : σ → τ → Prop) (early : Signal → σ → τ → Prop) (x : Flow σ α)
    (y : Flow τ α) : Prop where
  alike_or_early : ∀ s t, R s t → SameEnd R (x s) (y t) ∨ ∃ e s', x s = .error e s' ∧
    e.Fatal ∧ Ends y t (fun _ => early e s') fun _ => early e s'
  stays : ∀ e s', Keeps (early e s') y

namespace Curtails

theorem of_agree {x : Flow σ α} {y : Flow τ α} (same : Agree R x y)
    (stays : ∀ e s', Keeps (early e s') y) : Curtails R early x y where
  alike_or_early s t related := .inl (same s t related)
  stays := stays

/-- A run that stops at once is cut short, if the other one starts where the stop is known. -/
theorem stopped {e : Signal} (fatal : e.Fatal) {y : Flow τ α}
    (known : ∀ s t, R s t → early e s t) (stays : ∀ e s', Keeps (early e s') y) :
    Curtails R early (throw e) y where
  alike_or_early s t related := .inr ⟨e, s, rfl, fatal, stays e s t (known s t related)⟩
  stays := stays

theorem bind {x : Flow σ α} {y : Flow τ α} {f : α → Flow σ β} {g : α → Flow τ β}
    (first : Curtails R early x y) (rest : ∀ a, Curtails R early (f a) (g a)) :
    Curtails R early (x >>= f) (y >>= g) where
  stays e s' := keeps_bind (first.stays e s') fun a => (rest a).stays e s'
  alike_or_early s t related := by
    rcases first.alike_or_early s t related with same | ⟨e, s', stopped, fatal, ends⟩
    · cases left : x s with
      | ok a s' =>
          cases right : y t with
          | ok b t' =>
              rw [left, right] at same
              obtain ⟨rfl, related'⟩ := same
              simpa [Bind.bind, EStateM.bind, left, right, Ends] using
                (rest a).alike_or_early s' t' related'
          | error e t' => simp [left, right, SameEnd] at same
      | error e s' =>
          cases right : y t with
          | ok b t' => simp [left, right, SameEnd] at same
          | error f t' =>
              rw [left, right] at same
              exact .inl (by simpa [Bind.bind, EStateM.bind, left, right, SameEnd] using same)
    · refine .inr ⟨e, s', by simp [Bind.bind, EStateM.bind, stopped], fatal, ends_bind ?_⟩
      exact ends.mono (fun a t' => (rest a).stays e s' t') fun _ _ => id

theorem round {x : Flow σ Value} {y : Flow τ Value} (last : Value)
    (same : Curtails R early x y) : Curtails R early (Flow.round x last) (Flow.round y last) where
  stays e s' := Flow.keeps_round (same.stays e s') last
  alike_or_early s t related := by
    rcases same.alike_or_early s t related with alike | ⟨e, s', stopped, fatal, ends⟩
    · exact .inl (Flow.sameEnd_round alike last)
    · have passes : Flow.round x last s = .error e s' := by
        unfold Flow.round
        rw [stopped]
        cases e <;> first | rfl | cases fatal
      exact .inr ⟨e, s', passes, fatal, Flow.ends_round ends last⟩

/-- A body that is cut short is so from where it is called. -/
theorem enter {into : σ → σ} {back : σ → σ → σ} {into' : τ → τ} {back' : τ → τ → τ}
    {x : Flow σ Value} {y : Flow τ Value} (same : Curtails R early x y)
    (entered : ∀ s t, R s t → R (into s) (into' t))
    (left : ∀ s t s' t', R s t → R s' t' → R (back s s') (back' t t'))
    (cut : ∀ e s t s' t', R s t → early e s' t' → early e (back s s') (back' t t'))
    (ahead : ∀ e s' t, early e s' t → early e s' (into' t))
    (past : ∀ e s' t t', early e s' t → early e s' t' → early e s' (back' t t')) :
    Curtails R early (Flow.enter into back x) (Flow.enter into' back' y) where
  stays e s' t held :=
    Flow.ends_enter (same.stays e s' _ (ahead e s' t held)) fun t' => past e s' t t' held
  alike_or_early s t related := by
    rcases same.alike_or_early _ _ (entered s t related) with alike | ⟨e, s', stopped, fatal, ends⟩
    · exact .inl (Flow.sameEnd_enter alike fun s' t' => left s t s' t' related)
    · have passes : Flow.enter into back x s = .error e (back s s') := by
        unfold Flow.enter
        rw [stopped]
        cases e <;> first | rfl | cases fatal
      exact .inr ⟨e, _, passes, fatal,
        Flow.ends_enter ends fun t' => cut e s t s' t' related⟩

theorem ends {x : Flow σ α} {y : Flow τ α} (same : Curtails R early x y) {s : σ} {t : τ}
    (related : R s t) : SameEnd R (x s) (y t) ∨
      ∃ e s', x s = .error e s' ∧ early e s' (lastState (y t)) := by
  rcases same.alike_or_early s t related with alike | ⟨e, s', stopped, -, ends⟩
  · exact .inl alike
  · exact .inr ⟨e, s', stopped, ends_lastState.mp ends⟩

end Curtails

/-- Every run is cut short by itself, whatever is known of early stops. -/
theorem curtails_self {known : Signal → Prop} (x : Flow σ α) :
    Curtails Eq (fun e _ (_ : σ) => known e) x x where
  stays e s' t held := by
    unfold Ends
    cases x t <;> exact held
  alike_or_early := by
    rintro s _ rfl
    refine .inl ?_
    cases x s <;> exact ⟨rfl, rfl⟩

theorem curtails_lockstep (R : σ → τ → Prop) (early : Signal → σ → τ → Prop) :
    Lockstep (fun {α} (x : Flow σ α) (y : Flow τ α) => Curtails R early x y) where
  done a := .of_agree (agree_pure a) fun _ _ => keeps_pure a
  stop {_ e} _ := .of_agree (agree_throw e) fun _ _ => keeps_throw e
  bind := .bind
  round last same := same.round last

/-! ### What a run may stop for -/

variable {I K : σ → Prop} {why : Signal → σ → Prop}

end

end MathScript
