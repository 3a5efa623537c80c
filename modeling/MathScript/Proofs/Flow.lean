import MathScript.Flow

/-!
How a step on a state ends. `Ends` speaks of one step, whether it completes or stops; `Agree`
of two steps that start in related states and then end alike: both complete with one value or
both stop for one reason, in related states again. Every piece of control keeps both.
-/

namespace MathScript

section

variable {ε σ τ α β : Type}

/-- The state a step ends in, however it ends. -/
def lastState {ε σ α : Type} : EStateM.Result ε σ α → σ
  | .ok _ s | .error _ s => s

/-- What holds where a step from `s` completes, and where it stops. -/
def Ends (x : EStateM ε σ α) (s : σ) (ok : α → σ → Prop) (bad : ε → σ → Prop) : Prop :=
  match x s with
  | .ok a s => ok a s
  | .error e s => bad e s

section

variable {x : EStateM ε σ α} {s : σ} {ok : α → σ → Prop} {bad : ε → σ → Prop}

theorem ends_pure {a : α} (given : ok a s) : Ends (pure a : EStateM ε σ α) s ok bad := given

theorem ends_throw {e : ε} (given : bad e s) : Ends (throw e : EStateM ε σ α) s ok bad := given

theorem ends_modify {f : σ → σ} {ok : PUnit → σ → Prop} (given : ok () (f s)) :
    Ends (modify f : EStateM ε σ PUnit) s ok bad := given

theorem ends_true : Ends x s (fun _ _ => True) fun _ _ => True := by
  unfold Ends
  split <;> trivial

theorem Ends.of_ok {a : α} {s' : σ} (ends : Ends x s ok bad) (completed : x s = .ok a s') :
    ok a s' := by
  rwa [Ends, completed] at ends

theorem Ends.of_error {e : ε} {s' : σ} (ends : Ends x s ok bad) (stopped : x s = .error e s') :
    bad e s' := by
  rwa [Ends, stopped] at ends

@[simp] theorem lastState_ok (a : α) (s : σ) :
    lastState (.ok a s : EStateM.Result ε σ α) = s := rfl

@[simp] theorem lastState_error (e : ε) (s : σ) :
    lastState (.error e s : EStateM.Result ε σ α) = s := rfl

theorem ends_lastState {I : σ → Prop} :
    Ends x s (fun _ => I) (fun _ => I) ↔ I (lastState (x s)) := by
  unfold Ends
  cases x s <;> rfl

theorem Ends.mono {ok' : α → σ → Prop} {bad' : ε → σ → Prop} (ends : Ends x s ok bad)
    (fine : ∀ a s, ok a s → ok' a s) (stopped : ∀ e s, bad e s → bad' e s) :
    Ends x s ok' bad' := by
  rw [Ends]
  cases end_eq : x s with
  | ok a s' => exact fine a s' (ends.of_ok end_eq)
  | error e s' => exact stopped e s' (ends.of_error end_eq)

theorem Ends.and {ok' : α → σ → Prop} {bad' : ε → σ → Prop} (ends : Ends x s ok bad)
    (ends' : Ends x s ok' bad') :
    Ends x s (fun a s => ok a s ∧ ok' a s) fun e s => bad e s ∧ bad' e s := by
  rw [Ends]
  cases end_eq : x s with
  | ok a s' => exact ⟨ends.of_ok end_eq, ends'.of_ok end_eq⟩
  | error e s' => exact ⟨ends.of_error end_eq, ends'.of_error end_eq⟩

/-- A step that never stops completes. -/
theorem Ends.completes (ends : Ends x s ok fun _ _ => False) :
    ∃ a s', x s = .ok a s' ∧ ok a s' := by
  unfold Ends at ends
  cases done : x s with
  | ok a s' => exact ⟨a, s', rfl, by rwa [done] at ends⟩
  | error e s' =>
      rw [done] at ends
      exact ends.elim

variable {s' : σ} {f : α → EStateM ε σ β}

theorem bind_completed {a : α} (done : x s = .ok a s') : (x >>= f) s = f a s' := by
  simp only [bind, EStateM.bind, done]

theorem bind_stopped {e : ε} (stopped : x s = .error e s') : (x >>= f) s = .error e s' := by
  simp only [bind, EStateM.bind, stopped]

theorem bind_same {y : EStateM ε σ α} (same : x s = y s) (f : α → EStateM ε σ β) :
    (x >>= f) s = (y >>= f) s := by
  simp only [bind, EStateM.bind, same]

theorem ends_bind {ok : β → σ → Prop}
    (first : Ends x s (fun a s => Ends (f a) s ok bad) bad) : Ends (x >>= f) s ok bad := by
  unfold Ends
  cases end_eq : x s with
  | ok a s' =>
      rw [bind_completed end_eq]
      exact first.of_ok end_eq
  | error e s' =>
      rw [bind_stopped end_eq]
      exact first.of_error end_eq

end

/-- One value or one reason, in related states. -/
def SameEnd (R : σ → τ → Prop) : EStateM.Result ε σ α → EStateM.Result ε τ α → Prop
  | .ok a s, .ok b t => a = b ∧ R s t
  | .error e s, .error f t => e = f ∧ R s t
  | _, _ => False

def Agree (R : σ → τ → Prop) (x : EStateM ε σ α) (y : EStateM ε τ α) : Prop :=
  ∀ s t, R s t → SameEnd R (x s) (y t)

variable {R : σ → τ → Prop}

theorem agree_pure (a : α) : Agree R (pure a : EStateM ε σ α) (pure a) :=
  fun _ _ related => ⟨rfl, related⟩

theorem agree_throw (e : ε) : Agree R (throw e : EStateM ε σ α) (throw e) :=
  fun _ _ related => ⟨rfl, related⟩

theorem sameEnd_bind {x : EStateM ε σ α} {y : EStateM ε τ α} {f : α → EStateM ε σ β}
    {g : α → EStateM ε τ β} {s : σ} {t : τ} (first : SameEnd R (x s) (y t))
    (rest : ∀ a, Agree R (f a) (g a)) : SameEnd R ((x >>= f) s) ((y >>= g) t) := by
  -- The two first steps end in one form, so the cases in which they differ cannot arise.
  cases left : x s with
  | ok a s' =>
      cases right : y t with
      | ok b t' =>
          rw [left, right] at first
          obtain ⟨rfl, related'⟩ := first
          simpa [bind, EStateM.bind, left, right] using rest a s' t' related'
      | error e t' => simp [left, right, SameEnd] at first
  | error e s' =>
      cases right : y t with
      | ok b t' => simp [left, right, SameEnd] at first
      | error f t' =>
          rw [left, right] at first
          simpa [bind, EStateM.bind, left, right, SameEnd] using first

theorem agree_bind {x : EStateM ε σ α} {y : EStateM ε τ α} {f : α → EStateM ε σ β}
    {g : α → EStateM ε τ β} (first : Agree R x y) (rest : ∀ a, Agree R (f a) (g a)) :
    Agree R (x >>= f) (y >>= g) :=
  fun s t related => sameEnd_bind (first s t related) rest

end

theorem SameEnd.mono {ε σ τ α : Type} {R R' : σ → τ → Prop} {r : EStateM.Result ε σ α}
    {r' : EStateM.Result ε τ α} (same : SameEnd R r r') (more : ∀ s t, R s t → R' s t) :
    SameEnd R' r r' := by
  cases r <;> cases r'
  case ok.ok => exact ⟨same.1, more _ _ same.2⟩
  case error.error => exact ⟨same.1, more _ _ same.2⟩
  all_goals exact same.elim

theorem SameEnd.symm {ε σ τ α : Type} {R : σ → τ → Prop} {r : EStateM.Result ε σ α}
    {r' : EStateM.Result ε τ α} (same : SameEnd R r r') : SameEnd (fun t s => R s t) r' r := by
  cases r <;> cases r'
  case ok.ok => exact ⟨same.1.symm, same.2⟩
  case error.error => exact ⟨same.1.symm, same.2⟩
  all_goals exact same.elim

theorem SameEnd.trans {ε σ τ υ α : Type} {R : σ → τ → Prop} {S : τ → υ → Prop}
    {r : EStateM.Result ε σ α} {r' : EStateM.Result ε τ α} {r'' : EStateM.Result ε υ α}
    (first : SameEnd R r r') (rest : SameEnd S r' r'') :
    SameEnd (fun s u => ∃ t, R s t ∧ S t u) r r'' := by
  cases r <;> cases r' <;> cases r''
  case ok.ok.ok => exact ⟨first.1.trans rest.1, _, first.2, rest.2⟩
  case error.error.error => exact ⟨first.1.trans rest.1, _, first.2, rest.2⟩
  all_goals first | exact first.elim | exact rest.elim

/-- What commutes with a change of state keeps a state that the change leaves alone so. -/
theorem Agree.fixed {ε σ α : Type} {x : EStateM ε σ α} {f : σ → σ}
    (same : Agree (fun s t => t = f s) x x) {s : σ} (fixed : s = f s) :
    Ends x s (fun _ s' => s' = f s') fun _ s' => s' = f s' := by
  have ends := same s s fixed
  unfold Ends
  cases end_eq : x s with
  | ok a s' =>
      rw [end_eq] at ends
      exact ends.2
  | error e s' =>
      rw [end_eq] at ends
      exact ends.2

/-- What is known of each end alone adds to what is known of both. -/
theorem SameEnd.with_ends {ε σ τ α : Type} {R R' : σ → τ → Prop} {P : σ → Prop} {Q : τ → Prop}
    {x : EStateM ε σ α} {y : EStateM ε τ α} {s : σ} {t : τ} (same : SameEnd R (x s) (y t))
    (left : Ends x s (fun _ => P) fun _ => P) (right : Ends y t (fun _ => Q) fun _ => Q)
    (both : ∀ s' t', R s' t' → P s' → Q t' → R' s' t') : SameEnd R' (x s) (y t) := by
  unfold Ends at left right
  cases end_eq : x s <;> cases end_eq' : y t <;> rw [end_eq, end_eq'] at same <;>
    rw [end_eq] at left <;> rw [end_eq'] at right
  · exact ⟨same.1, both _ _ same.2 left right⟩
  · exact same.elim
  · exact same.elim
  · exact ⟨same.1, both _ _ same.2 left right⟩

/-- However a step ends, the state keeps a property. -/
def Keeps {ε σ α : Type} (I : σ → Prop) (x : EStateM ε σ α) : Prop :=
  ∀ s, I s → Ends x s (fun _ => I) (fun _ => I)

section

variable {ε σ α β : Type} {I : σ → Prop}

theorem keeps_pure (a : α) : Keeps I (pure a : EStateM ε σ α) := fun _ held => ends_pure held

theorem keeps_throw (e : ε) : Keeps I (throw e : EStateM ε σ α) := fun _ held => ends_throw held

theorem keeps_bind {x : EStateM ε σ α} {f : α → EStateM ε σ β} (first : Keeps I x)
    (rest : ∀ a, Keeps I (f a)) : Keeps I (x >>= f) :=
  fun s held => ends_bind ((first s held).mono (fun a s => rest a s) fun _ _ => id)

theorem keeps_forM {f : α → EStateM ε σ PUnit} (each : ∀ a, Keeps I (f a)) (items : List α) :
    Keeps I (items.forM f) := by
  induction items with
  | nil => exact keeps_pure _
  | cons a items ih => exact keeps_bind (each a) fun _ => ih

end

namespace Flow

section

variable {σ : Type} {I : σ → Prop}

theorem keeps_truth {x : Flow σ Value} (kept : Keeps I x) : Keeps I (truth x) :=
  keeps_bind kept fun v => keeps_pure v.isTrue

theorem keeps_ignore {x : Flow σ Value} (kept : Keeps I x) : Keeps I (ignore x) :=
  keeps_bind kept fun _ => keeps_pure ()

/-- A signal that leaves the body is a round too; it ends in the state the body left. -/
theorem ends_round {body : Flow σ Value} {s : σ}
    (after : Ends body s (fun _ => I) fun _ => I) (last : Value) :
    Ends (round body last) s (fun _ => I) fun _ => I := by
  unfold Ends at *
  unfold round
  cases end_eq : body s with
  | ok v s' => simpa [end_eq] using after
  | error e s' =>
      rw [end_eq] at after
      cases e <;> exact after

theorem keeps_round {body : Flow σ Value} (kept : Keeps I body) (last : Value) :
    Keeps I (round body last) :=
  fun s held => ends_round (kept s held) last

theorem keeps_loop {test : Flow σ Bool} {step : Flow σ Unit} {body : Flow σ Value}
    (tests : Keeps I test) (steps : Keeps I step) (bodies : Keeps I body) (rounds : Nat)
    (last : Value) : Keeps I (loop test step body rounds last) := by
  -- The value so far changes from round to round, so the induction is for every value.
  induction rounds generalizing last with
  | zero => exact keeps_throw _
  | succ rounds ih =>
      apply keeps_bind tests
      intro holds
      cases holds with
      | false => exact keeps_pure last
      | true =>
          refine keeps_bind (keeps_round bodies last) fun (goes, last) => ?_
          cases goes with
          | false => exact keeps_pure last
          | true => exact keeps_bind steps fun _ => ih last

theorem keeps_loopUntil {body : Flow σ Value} {stop : Flow σ Bool} (bodies : Keeps I body)
    (stops : Keeps I stop) (rounds : Nat) (last : Value) :
    Keeps I (loopUntil body stop rounds last) := by
  induction rounds generalizing last with
  | zero => exact keeps_throw _
  | succ rounds ih =>
      refine keeps_bind (keeps_round bodies last) fun (goes, last) => ?_
      cases goes with
      | false => exact keeps_pure last
      | true =>
          apply keeps_bind stops
          intro holds
          cases holds with
          | false => exact ih last
          | true => exact keeps_pure last

theorem keeps_collect {item : Flow σ Value} (kept : Keeps I item) (count : Nat)
    (xs : Array Float) : Keeps I (collect item count xs) := by
  induction count generalizing xs with
  | zero => exact keeps_pure xs
  | succ count ih => exact keeps_bind kept fun v => ih _

theorem ends_enter {into : σ → σ} {back : σ → σ → σ} {body : Flow σ Value} {s : σ}
    {K : σ → Prop} (inner : Ends body (into s) (fun _ => K) fun _ => K)
    (left : ∀ s', K s' → I (back s s')) :
    Ends (enter into back body) s (fun _ => I) fun _ => I := by
  unfold Ends at *
  unfold enter
  cases end_eq : body (into s) with
  | ok v s' =>
      rw [end_eq] at inner
      exact left s' inner
  | error e s' =>
      rw [end_eq] at inner
      cases e <;> exact left s' inner

/-- A connective yields a number. -/
theorem ends_connect (op : Connective) {left right : Flow σ Value} (lefts : Keeps I left)
    (rights : Keeps I right) (s : σ) (held : I s) :
    Ends (connect op left right) s (fun v s => (∃ x, v = .scalar x) ∧ I s) fun _ => I := by
  refine ends_bind ((lefts s held).mono (fun v s held => ?_) fun _ _ => id)
  have other : Ends (do return Value.scalar (ofBool (← right).isTrue)) s
      (fun v s => (∃ x, v = .scalar x) ∧ I s) fun _ => I :=
    ends_bind ((rights s held).mono (fun w s held => ends_pure ⟨⟨_, rfl⟩, held⟩) fun _ _ => id)
  -- The right side runs in two of the four cases.
  cases op <;> cases v.isTrue
  · exact ends_pure ⟨⟨_, rfl⟩, held⟩
  · exact other
  · exact other
  · exact ends_pure ⟨⟨_, rfl⟩, held⟩

end

section

variable {σ τ : Type} {R : σ → τ → Prop}

theorem agree_truth {x : Flow σ Value} {y : Flow τ Value} (same : Agree R x y) :
    Agree R (truth x) (truth y) :=
  agree_bind same fun v => agree_pure v.isTrue

theorem agree_ignore {x : Flow σ Value} {y : Flow τ Value} (same : Agree R x y) :
    Agree R (ignore x) (ignore y) :=
  agree_bind same fun _ => agree_pure ()

theorem agree_connect (op : Connective) {l r : Flow σ Value} {l' r' : Flow τ Value}
    (left : Agree R l l') (right : Agree R r r') :
    Agree R (connect op l r) (connect op l' r') := by
  apply agree_bind left
  intro v
  cases op <;> cases v.isTrue
  · exact agree_pure _
  · exact agree_bind right fun w => agree_pure _
  · exact agree_bind right fun w => agree_pure _
  · exact agree_pure _

theorem sameEnd_round {x : Flow σ Value} {y : Flow τ Value} {s : σ} {t : τ}
    (same : SameEnd R (x s) (y t)) (last : Value) :
    SameEnd R (round x last s) (round y last t) := by
  unfold round
  cases left : x s with
  | ok v s' =>
      cases right : y t with
      | ok w t' => simpa [left, right, SameEnd] using same
      | error e t' => simp [left, right, SameEnd] at same
  | error e s' =>
      cases right : y t with
      | ok w t' => simp [left, right, SameEnd] at same
      | error f t' =>
          rw [left, right] at same
          obtain ⟨rfl, related'⟩ := same
          cases e <;> exact ⟨rfl, related'⟩

theorem agree_round {x : Flow σ Value} {y : Flow τ Value} (same : Agree R x y) (last : Value) :
    Agree R (round x last) (round y last) :=
  fun s t related => sameEnd_round (same s t related) last

theorem agree_loop {test : Flow σ Bool} {test' : Flow τ Bool} {step : Flow σ Unit}
    {step' : Flow τ Unit} {body : Flow σ Value} {body' : Flow τ Value}
    (tests : Agree R test test') (steps : Agree R step step') (bodies : Agree R body body')
    (rounds : Nat) (last : Value) :
    Agree R (loop test step body rounds last) (loop test' step' body' rounds last) := by
  induction rounds generalizing last with
  | zero => exact agree_throw _
  | succ rounds ih =>
      apply agree_bind tests
      intro holds
      cases holds with
      | false => exact agree_pure last
      | true =>
          -- A round tells both sides alike whether to go on and with which value.
          refine agree_bind (agree_round bodies last) fun (goes, last) => ?_
          cases goes with
          | false => exact agree_pure last
          | true => exact agree_bind steps fun _ => ih last

theorem agree_loopUntil {body : Flow σ Value} {body' : Flow τ Value} {stop : Flow σ Bool}
    {stop' : Flow τ Bool} (bodies : Agree R body body') (stops : Agree R stop stop')
    (rounds : Nat) (last : Value) :
    Agree R (loopUntil body stop rounds last) (loopUntil body' stop' rounds last) := by
  induction rounds generalizing last with
  | zero => exact agree_throw _
  | succ rounds ih =>
      refine agree_bind (agree_round bodies last) fun (goes, last) => ?_
      cases goes with
      | false => exact agree_pure last
      | true =>
          apply agree_bind stops
          intro holds
          cases holds with
          | false => exact ih last
          | true => exact agree_pure last

theorem agree_collect {item : Flow σ Value} {item' : Flow τ Value} (same : Agree R item item')
    (count : Nat) (xs : Array Float) :
    Agree R (collect item count xs) (collect item' count xs) := by
  induction count generalizing xs with
  | zero => exact agree_pure xs
  | succ count ih => exact agree_bind same fun v => ih _

theorem sameEnd_enter {into : σ → σ} {back : σ → σ → σ} {into' : τ → τ} {back' : τ → τ → τ}
    {x : Flow σ Value} {y : Flow τ Value} {s : σ} {t : τ} {K : σ → τ → Prop}
    (same : SameEnd K (x (into s)) (y (into' t)))
    (left : ∀ s' t', K s' t' → R (back s s') (back' t t')) :
    SameEnd R (enter into back x s) (enter into' back' y t) := by
  unfold enter
  cases end_eq : x (into s) with
  | ok v s' =>
      cases end_eq' : y (into' t) with
      | ok w t' =>
          rw [end_eq, end_eq'] at same
          obtain ⟨rfl, related'⟩ := same
          exact ⟨rfl, left s' t' related'⟩
      | error e t' => simp [end_eq, end_eq', SameEnd] at same
  | error e s' =>
      cases end_eq' : y (into' t) with
      | ok w t' => simp [end_eq, end_eq', SameEnd] at same
      | error f t' =>
          rw [end_eq, end_eq'] at same
          obtain ⟨rfl, related'⟩ := same
          cases e <;> exact ⟨rfl, left s' t' related'⟩

theorem agree_enter {into : σ → σ} {back : σ → σ → σ} {into' : τ → τ} {back' : τ → τ → τ}
    {x : Flow σ Value} {y : Flow τ Value} (same : Agree R x y)
    (entered : ∀ s t, R s t → R (into s) (into' t))
    (left : ∀ s t s' t', R s t → R s' t' → R (back s s') (back' t t')) :
    Agree R (enter into back x) (enter into' back' y) :=
  fun s t related =>
    sameEnd_enter (same _ _ (entered s t related)) fun s' t' => left s t s' t' related

end

end Flow

end MathScript
