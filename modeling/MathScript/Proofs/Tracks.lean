import MathScript.Proofs.Acts
import MathScript.Proofs.Curtail
import MathScript.Proofs.Record

/-!
Going along with a recorded run. Two runs go alike until the left one is lost, and what is lost
stays so. A tape is lost once its log has a moment that is not fine; so whoever goes along with
every step that is fine goes along with every run whose log is fine to its end.
-/

namespace MathScript

/-- Both end alike, or the left one is lost on its way; and what is lost stays so. -/
structure Tracks {σ τ α : Type} (R : σ → τ → Prop) (lost : σ → Prop) (x : Flow σ α)
    (y : Flow τ α) : Prop where
  alike : ∀ s t, R s t → SameEnd R (x s) (y t) ∨ Ends x s (fun _ => lost) fun _ => lost
  stays : Keeps lost x

namespace Tracks

variable {σ τ α β : Type} {R : σ → τ → Prop} {lost : σ → Prop}

theorem of_agree {x : Flow σ α} {y : Flow τ α} (same : Agree R x y) (stays : Keeps lost x) :
    Tracks R lost x y :=
  ⟨fun s t related => .inl (same s t related), stays⟩

theorem bind {x : Flow σ α} {y : Flow τ α} {f : α → Flow σ β} {g : α → Flow τ β}
    (first : Tracks R lost x y) (rest : ∀ a, Tracks R lost (f a) (g a)) :
    Tracks R lost (x >>= f) (y >>= g) where
  stays := keeps_bind first.stays fun a => (rest a).stays
  alike s t related := by
    rcases first.alike s t related with same | gone
    · cases left : x s with
      | ok a s' =>
          cases right : y t with
          | ok b t' =>
              rw [left, right] at same
              obtain ⟨rfl, related'⟩ := same
              simpa [Bind.bind, EStateM.bind, left, right, Ends] using
                (rest a).alike s' t' related'
          | error e t' => simp [left, right, SameEnd] at same
      | error e s' =>
          cases right : y t with
          | ok b t' => simp [left, right, SameEnd] at same
          | error f t' =>
              rw [left, right] at same
              exact .inl (by simpa [Bind.bind, EStateM.bind, left, right, SameEnd] using same)
    · exact .inr (ends_bind (gone.mono (fun a s' => (rest a).stays s') fun _ _ => id))

theorem round {x : Flow σ Value} {y : Flow τ Value} (last : Value) (same : Tracks R lost x y) :
    Tracks R lost (Flow.round x last) (Flow.round y last) where
  stays := Flow.keeps_round same.stays last
  alike s t related :=
    (same.alike s t related).imp (fun alike => Flow.sameEnd_round alike last)
      fun gone => Flow.ends_round gone last

/-- A body that is tracked is so from where it is called. -/
theorem enter {K : σ → τ → Prop} {into : σ → σ} {back : σ → σ → σ} {into' : τ → τ}
    {back' : τ → τ → τ} {x : Flow σ Value} {y : Flow τ Value} (same : Tracks K lost x y)
    (entered : ∀ s t, R s t → K (into s) (into' t))
    (left : ∀ s t s' t', R s t → K s' t' → R (back s s') (back' t t'))
    (inward : ∀ s, lost s → lost (into s)) (outward : ∀ s s', lost s' → lost (back s s')) :
    Tracks R lost (Flow.enter into back x) (Flow.enter into' back' y) where
  stays s gone := Flow.ends_enter (same.stays _ (inward s gone)) fun s' => outward s s'
  alike s t related := by
    rcases same.alike _ _ (entered s t related) with alike | gone
    · exact .inl (Flow.sameEnd_enter alike fun s' t' => left s t s' t' related)
    · exact .inr (Flow.ends_enter gone fun s' => outward s s')

/-- A run that is not lost has been gone along with to its end. -/
theorem to_end {x : Flow σ α} {y : Flow τ α} (tracks : Tracks R lost x y) {s : σ} {t : τ}
    (related : R s t) (kept : ¬ lost (lastState (x s))) : SameEnd R (x s) (y t) :=
  (tracks.alike s t related).resolve_right fun gone => kept (ends_lastState.mp gone)

end Tracks

theorem tracks_lockstep {σ τ : Type} (R : σ → τ → Prop) (lost : σ → Prop) :
    Lockstep (fun {α} (x : Flow σ α) (y : Flow τ α) => Tracks R lost x y) where
  done a := .of_agree (agree_pure a) (keeps_pure a)
  stop _ := .of_agree (agree_throw _) (keeps_throw _)
  bind := .bind
  round last same := same.round last

namespace Tape

/-! ### Tapes that are lost -/

/-- A moment has been logged that is not fine. -/
def Lost (fine : Moment → Prop) (t : Tape) : Prop := ∃ m ∈ t.log, ¬ fine m

variable {fine : Moment → Prop} {α τ : Type}

theorem keeps_note (e : Event) : Keeps (Lost fine) (note e) := by
  rintro t ⟨m, logged, bad⟩
  exact ends_modify ⟨m, List.mem_cons_of_mem _ logged, bad⟩

theorem keeps_lift (x : Eval α) : Keeps (Lost fine) (lift x) := by
  intro t lost
  unfold Ends lift
  cases x t.machine <;> exact lost

/-- Whoever notes what is not fine is lost, whatever is done then. -/
theorem note_lost {x : Flow Tape α} (stays : Keeps (Lost fine) x) {e : Event} {t : Tape}
    (bad : ¬ fine ⟨e, t.machine.locals, t.frame⟩) :
    Ends (do note e; x) t (fun _ => Lost fine) fun _ => Lost fine :=
  ends_bind (ends_modify (stays _ ⟨_, List.mem_cons_self, bad⟩))

/-! ### Steps of a tape -/

/-- What is related is the machine of a tape. -/
def Over (R : Machine → τ → Prop) (t : Tape) (s : τ) : Prop := R t.machine s

variable {R : Machine → τ → Prop}

theorem sameEnd_lift {x : Eval α} {y : Flow τ α} {t : Tape} {s : τ}
    (same : SameEnd R (x t.machine) (y s)) : SameEnd (Over R) (lift x t) (y s) := by
  unfold lift
  cases end_eq : x t.machine <;> cases end_eq' : y s <;> rw [end_eq, end_eq'] at same <;>
    exact same

theorem tracks_lift {x : Eval α} {y : Flow τ α} (same : Agree R x y) :
    Tracks (Over R) (Lost fine) (lift x) y :=
  .of_agree (fun t s related => sameEnd_lift (same t.machine s related)) (keeps_lift x)

/-- A note in front of a step that is tracked from where the note is fine. -/
theorem tracks_note {e : Event} {x : Flow Tape α} {y : Flow τ α} (stays : Keeps (Lost fine) x)
    (alike : ∀ t s, R t.machine s → fine ⟨e, t.machine.locals, t.frame⟩ →
      SameEnd (Over R) (x t) (y s) ∨ Ends x t (fun _ => Lost fine) fun _ => Lost fine) :
    Tracks (Over R) (Lost fine) (do note e; x) y where
  stays := keeps_bind (keeps_note e) fun _ => stays
  alike t s related := by
    by_cases good : fine ⟨e, t.machine.locals, t.frame⟩
    · exact alike { t with log := ⟨e, t.machine.locals, t.frame⟩ :: t.log } s related good
    · exact .inr (note_lost stays good)

theorem tracks_touching {b : Binding} {use : Kind} {writes : Bool} {x : Eval α} {y : Flow τ α}
    (same : ∀ m s frame, R m s → fine ⟨.touch b use writes, m.locals, frame⟩ →
      SameEnd R (x m) (y s)) :
    Tracks (Over R) (Lost fine) (touching b use writes x) y := by
  have behind : ∀ a : α, Agree (Over R) (do
      note (.touch b use writes)
      return a) (pure a : Flow τ α) := fun a t s related => ⟨rfl, related⟩
  refine tracks_note ?_ fun t s related good => .inl ?_
  · exact keeps_bind (keeps_lift x) fun a => keeps_bind (keeps_note _) fun _ => keeps_pure a
  · simpa using sameEnd_bind (sameEnd_lift (same t.machine s t.frame related good)) behind

/-! ### Calls of generic functions -/

section

variable {a : Acts τ}

theorem tracks_writeBack (params : List Param) {bindings : List (Option Binding)}
    (written : ∀ b ∈ bindings.filterMap id, ∀ p : Param, p.kind = b.kind →
      Tracks (Over R) (Lost fine)
        (touching b p.kind true (modify (Eval.writeBack [p] [some b]))) (a.writeParam b p)) :
    Tracks (Over R) (Lost fine) (writeBack params bindings) (a.writeBack params bindings) := by
  induction params generalizing bindings with
  | nil => exact .of_agree (agree_pure ()) (keeps_pure ())
  | cons p params ih =>
      cases bindings with
      | nil => exact .of_agree (agree_pure ()) (keeps_pure ())
      | cons b bindings =>
          cases b with
          | none => exact ih written
          | some b =>
              simp only [List.filterMap_cons, id, List.forall_mem_cons] at written
              by_cases same : p.kind = b.kind
              · simp only [writeBack, same, if_true, Acts.writeBack]
                exact .bind (same ▸ written.1 p same) fun _ => ih written.2
              · simp only [writeBack, same, if_false, Acts.writeBack,
                  a.writeParam_other same, pure_bind]
                exact ih written.2

theorem callGeneric_eq (host : Host) (native overload : Nat) (writeback : List (Option Binding))
    (args : List Tree) (values : List Value) :
    callGeneric host native overload writeback args values = (do
      note (.offer native overload args values)
      match ← lift (Acts.answer host native overload values) with
      | some (x, params) =>
          writeBack params writeback
          return .scalar x
      | none => return .null) := by
  -- Both note the offer; behind that the replies are told apart before or after they are taken.
  refine congrArg (note (.offer native overload args values) >>= ·) ?_
  funext _ t
  simp only [Acts.answer, lift, Bind.bind, EStateM.bind]
  cases Eval.ask host native overload values t.machine with
  | error e m => rfl
  | ok reply m => obtain _ | ⟨f | x, params, _⟩ := reply <;> rfl

theorem tracks_callGeneric (host : Host) {native overload : Nat}
    {writeback : List (Option Binding)} (args : List Tree) {values : List Value}
    (asked : Agree R (Acts.answer host native overload values) (a.ask native overload values))
    (written : ∀ b ∈ writeback.filterMap id, ∀ p : Param, p.kind = b.kind →
      Tracks (Over R) (Lost fine)
        (touching b p.kind true (modify (Eval.writeBack [p] [some b]))) (a.writeParam b p)) :
    Tracks (Over R) (Lost fine) (callGeneric host native overload writeback args values)
      (a.callGeneric native overload writeback values) := by
  have answered : Tracks (Over R) (Lost fine) (do
      match ← lift (Acts.answer host native overload values) with
      | some (x, params) =>
          writeBack params writeback
          return .scalar x
      | none => return .null) (a.callGeneric native overload writeback values) := by
    apply (tracks_lift asked).bind
    intro reply
    match reply with
    | none => exact .of_agree (agree_pure _) (keeps_pure _)
    | some (x, params) =>
        exact (tracks_writeBack params written).bind fun _ =>
          .of_agree (agree_pure _) (keeps_pure _)
  rw [callGeneric_eq]
  exact tracks_note answered.stays fun t s related _ => answered.alike t s related

end

end Tape

end MathScript
