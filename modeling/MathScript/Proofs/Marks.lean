import MathScript.Proofs.Glances
import MathScript.Proofs.Sequence

/-!
Where a parser may blame a text. A part of a statement that fails names a position it has passed:
the front of a state since the statement began, with a token taken before or behind it. `Goes` is
told of parts that stand behind a token of their statement, `Begins` of those that may be the first
of it; the latter fail without a token taken only in front of nothing, of a `;`, or at the limit of
nesting. A part goes on for no more rounds than there is left to take or to put down.
-/

namespace MathScript.Parse

variable {source : Source} {given : List Lexeme}

/-- Through the inside of one statement. -/
def Went (source : Source) (b : State) (took : Bool) (s : State) : Prop :=
  ∃ es, Passage source false b took es s

namespace Went

variable {b m s : State} {took took' : Bool}

theorem refl (s : State) : Went source s false s := ⟨[], .refl false s⟩

theorem trans (first : Went source b took m) (second : Went source m took' s) :
    Went source b (took || took') s :=
  ⟨_, first.choose_spec.trans second.choose_spec⟩

theorem ready (went : Went source b took s) (ready : Ready source given b) :
    Ready source given s :=
  (went.choose_spec.moved ready).ready

theorem budget (went : Went source b took s) (ready : Ready source given b) :
    s.budget source + took.toNat ≤ b.budget source :=
  (went.choose_spec.moved ready).budget

/-- From a token on, a token was taken. -/
theorem on (first : Went source b true m) (second : Went source m took s) :
    Went source b true s := by
  simpa using first.trans second

end Went

/-- What is reached from behind a passage is reached from in front of it. -/
theorem Went.ends {α : Type} {x : Parse α} {s m : State} {took : Bool}
    {bad : Diagnostic → State → Prop} (went : Went source s took m)
    (ends : Ends x m (fun _ s' => ∃ took, Went source m took s') bad) :
    Ends x m (fun _ s' => ∃ took, Went source s took s') bad := by
  refine ends.mono ?_ fun _ _ => id
  rintro _ s' ⟨took', went'⟩
  exact ⟨_, went.trans went'⟩

theorem Stepped.went {b s : State} {took : Bool} (stepped : Stepped source b took s) :
    Went source b took s :=
  ⟨_, .ofActs stepped.choose_spec⟩

theorem went_look (source : Source) (s : State) : Went source s false (s.look source 1) :=
  s.stepped_look.went

theorem Ready.budget_lt {s : State} (ready : Ready source given s) (text : Given source given) :
    s.budget source < source.allowance := by
  have fewer := ready.left.length_le
  have allowed := text.allowed
  rw [State.budget]
  omega

/-- The front of a state that a statement from `b` on has passed, not all without a token. -/
def Marked (source : Source) (b : State) (position : Nat) (s : State) : Prop :=
  ∃ m took took', Went source b took m ∧ Went source m took' s ∧ (took || took') = true ∧
    m.front source = position

theorem Marked.on {b s s' : State} {position : Nat} {took : Bool}
    (marked : Marked source b position s) (went : Went source s took s') :
    Marked source b position s' := by
  obtain ⟨m, before, behind, first, second, some, front⟩ := marked
  refine ⟨m, before, behind || took, first, second.trans went, ?_, front⟩
  rw [← Bool.or_assoc, some, Bool.true_or]

/-- A statement from `b` on fails for a proper cause at a marked position. -/
def Faulty (source : Source) (b : State) (d : Diagnostic) (s : State) : Prop :=
  ∃ position cause, Marked source b position s ∧ cause.isProper = true ∧
    d = Diagnostic.locate source.text position cause

theorem Faulty.on {b s s' : State} {d : Diagnostic} {took : Bool} (faulty : Faulty source b d s)
    (went : Went source s took s') : Faulty source b d s' := by
  obtain ⟨position, cause, marked, proper, same⟩ := faulty
  exact ⟨position, cause, marked.on went, proper, same⟩

/-- In the midst of a statement from `b` on, with positions to blame. -/
structure Midway (source : Source) (given : List Lexeme) (marks : List Nat) (b s : State) :
    Prop where
  text : Given source given
  ready : Ready source given b
  went : Went source b true s
  marked : ∀ position ∈ marks, Marked source b position s

namespace Midway

variable {marks marks' : List Nat} {b s s' : State} {took : Bool}

theorem on (midway : Midway source given marks b s) (went : Went source s took s') :
    Midway source given marks b s' :=
  ⟨midway.text, midway.ready, midway.went.on went, fun position inside =>
    (midway.marked position inside).on went⟩

theorem fewer (midway : Midway source given marks b s) (subset : marks' ⊆ marks) :
    Midway source given marks' b s :=
  { midway with marked := fun position inside => midway.marked position (subset inside) }

/-- The front can be blamed from here on. -/
theorem here (midway : Midway source given marks b s) :
    Midway source given (s.front source :: marks) b s := by
  refine { midway with marked := fun position inside => ?_ }
  rcases List.mem_cons.mp inside with rfl | before
  · exact ⟨s, true, false, midway.went, .refl s, rfl, rfl⟩
  · exact midway.marked position before

theorem readyHere (midway : Midway source given marks b s) : Ready source given s :=
  midway.went.ready midway.ready

end Midway

/-- A part behind a token of its statement, for so many rounds. -/
def Goes {α : Type} (source : Source) (marks : List Nat) (rounds : Nat) (x : Parse α) : Prop :=
  ∀ given b s, Midway source given marks b s → s.budget source < rounds →
    Ends x s (fun _ s' => ∃ took, Went source s took s') (Faulty source b)

section

variable {α β : Type} {marks marks' : List Nat} {rounds rounds' : Nat}

theorem goes_pure (a : α) : Goes source marks rounds (pure a) :=
  fun _ _ s _ _ => ends_pure ⟨false, .refl s⟩

theorem goes_fail {position : Nat} {cause : Cause} (inside : position ∈ marks)
    (proper : cause.isProper = true) :
    Goes source marks rounds (fail source position cause : Parse α) :=
  fun _ _ _ midway _ => ends_throw ⟨position, cause, midway.marked position inside, proper, rfl⟩

theorem goes_stalled : Goes source marks 0 (stalled source : Parse α) :=
  fun _ _ _ _ within => absurd within (Nat.not_lt_zero _)

theorem goes_ite {c : Prop} [Decidable c] {x y : Parse α} (yes : Goes source marks rounds x)
    (no : Goes source marks rounds y) : Goes source marks rounds (if c then x else y) := by
  split
  · exact yes
  · exact no

theorem Goes.bind {x : Parse α} {f : α → Parse β} (first : Goes source marks rounds x)
    (rest : ∀ a, Goes source marks rounds (f a)) : Goes source marks rounds (x >>= f) := by
  intro given b s midway within
  refine ends_bind ((first given b s midway within).mono ?_ fun _ _ => id)
  rintro a m ⟨took, went⟩
  have less := went.budget midway.readyHere
  exact went.ends (rest a given b m (midway.on went) (by omega))

theorem Goes.more {x : Parse α} (goes : Goes source marks rounds x) (subset : marks ⊆ marks') :
    Goes source marks' rounds x :=
  fun given b s midway within => goes given b s (midway.fewer subset) within

theorem Goes.le {x : Parse α} (goes : Goes source marks rounds' x) (fewer : rounds ≤ rounds') :
    Goes source marks rounds x :=
  fun given b s midway within => goes given b s midway (Nat.lt_of_lt_of_le within fewer)

/-- No more rounds than are allowed are ever needed. -/
theorem Goes.within {x : Parse α} (goes : Goes source marks source.allowance x) :
    Goes source marks rounds x :=
  fun given b s midway _ => goes given b s midway (midway.readyHere.budget_lt midway.text)

/-- A part that only steps on. -/
theorem goes_stepped {x : Parse α}
    (steps : ∀ s, Ends x s (fun _ s' => ∃ took, Stepped source s took s') fun _ _ => False) :
    Goes source marks rounds x := by
  intro given b s midway within
  refine (steps s).mono ?_ fun _ _ => False.elim
  rintro a s' ⟨took, stepped⟩
  exact ⟨took, stepped.went⟩

/-- From here on the position ahead can be blamed. -/
theorem goes_position {f : Nat → Parse α}
    (rest : ∀ here, Goes source (here :: marks) rounds (f here)) :
    Goes source marks rounds (position source >>= f) := by
  intro given b s midway within
  have looked := went_look source s
  have less := looked.budget midway.readyHere
  apply ends_bind
  rw [Ends, position_eq]
  exact looked.ends (rest _ given b _ (midway.on looked).here (by omega))

/-- Behind a token that is taken there is less to come. -/
theorem goes_taking {x : Parse Bool} {f : Bool → Parse α} {t : Token}
    (ends : ∀ s, Ends x s
      (fun taken s' =>
        if taken = true then ∃ position ahead, (s.look source 1).ahead = (position, t) :: ahead ∧
          s' = (s.look source 1).behind t ahead
        else s' = s.look source 1 ∧ s'.ahead.head?.map Prod.snd ≠ some t)
      fun _ _ => False)
    (yes : Goes source marks rounds (f true)) (no : Goes source marks (rounds + 1) (f false)) :
    Goes source marks (rounds + 1) (x >>= f) := by
  intro given b s midway within
  refine ends_bind ((ends s).mono (fun taken m ended => ?_) fun _ _ => False.elim)
  cases taken with
  | true =>
      rw [if_pos rfl] at ended
      obtain ⟨position, ahead, next, rfl⟩ := ended
      have taken := (Stepped.taking next).went
      have less := taken.budget midway.readyHere
      rw [Bool.toNat_true] at less
      exact taken.ends (yes given b _ (midway.on taken) (by omega))
  | false =>
      rw [if_neg Bool.false_ne_true] at ended
      obtain ⟨rfl, -⟩ := ended
      have looked := went_look source s
      have less := looked.budget midway.readyHere
      exact looked.ends (no given b _ (midway.on looked) (by omega))

theorem Goes.ends {x : Parse α} {given : List Lexeme} {b s : State}
    (goes : Goes source marks source.allowance x) (midway : Midway source given marks b s) :
    Ends x s (fun _ s' => ∃ took, Went source s took s') (Faulty source b) :=
  goes given b s midway (midway.readyHere.budget_lt midway.text)

/-! ### Access to tokens -/

theorem goes_peek : Goes source marks rounds (peek source) :=
  goes_stepped fun s => ⟨false, s.stepped_look⟩

theorem goes_peekSecond : Goes source marks rounds (peekSecond source) :=
  goes_stepped fun s => ⟨false, s.stepped_look_two⟩

theorem goes_check (sym : Sym) : Goes source marks rounds (check source sym) :=
  goes_peek.bind fun _ => goes_pure _

theorem goes_checkWord (word : String) : Goes source marks rounds (checkWord source word) :=
  goes_peek.bind fun _ => goes_pure _

theorem goes_advance : Goes source marks rounds (advance source) := by
  apply goes_stepped
  intro s
  refine (ends_advancing source s).mono (fun found s' advanced => ?_) fun _ _ => id
  cases found with
  | some t =>
      obtain ⟨position, ahead, next, rfl⟩ := advanced
      exact ⟨true, .taking next⟩
  | none =>
      obtain ⟨-, rfl⟩ := advanced
      exact ⟨false, s.stepped_look.trans (.of_act (.turn rfl rfl rfl))⟩

theorem goes_eat (sym : Sym) : Goes source marks rounds (eat source sym) :=
  (goes_check sym).bind fun _ =>
    goes_ite (goes_advance.bind fun _ => goes_pure _) (goes_pure _)

theorem goes_eatWord (word : String) : Goes source marks rounds (eatWord source word) :=
  (goes_checkWord word).bind fun _ =>
    goes_ite (goes_advance.bind fun _ => goes_pure _) (goes_pure _)

theorem goes_expect (sym : Sym) (context : String) :
    Goes source marks rounds (expect source sym context) :=
  (goes_eat sym).bind fun _ => goes_ite (goes_pure _) <| goes_position fun _ =>
    goes_peek.bind fun _ => goes_fail List.mem_cons_self rfl

/-- What changes neither tokens nor diagnostics. -/
theorem goes_modifyGet {f : State → α × State} (ahead : ∀ s, (f s).2.ahead = s.ahead)
    (rest : ∀ s, (f s).2.rest = s.rest) (diagnostics : ∀ s, (f s).2.diagnostics = s.diagnostics) :
    Goes source marks rounds (modifyGet f) :=
  goes_stepped fun s => ⟨false, .of_act (.turn (ahead s) (rest s) (diagnostics s))⟩

theorem goes_get {f : State → Parse α} (rest : ∀ s, Goes source marks rounds (f s)) :
    Goes source marks rounds (get >>= f) :=
  fun given b s midway within => rest s given b s midway within

theorem goes_declareLocal (name : String) (kind : Kind) (writable : Bool) :
    Goes source marks rounds (declareLocal name kind writable) :=
  goes_modifyGet (fun _ => rfl) (fun _ => rfl) fun _ => rfl

theorem goes_declaredHere (name : String) : Goes source marks rounds (declaredHere name) :=
  goes_get fun s => by cases s.scopes <;> exact goes_pure _

/-! ### Scopes and loops -/

theorem ends_scoped {x : Parse α} {s : State} {ok : α → State → Prop}
    {bad : Diagnostic → State → Prop}
    (ends : Ends x { s with scopes := [] :: s.scopes }
      (fun a s' => ok a { s' with scopes := s'.scopes.drop 1 })
      fun d s' => bad d { s' with scopes := s'.scopes.drop 1 }) : Ends (inScope x) s ok bad := by
  unfold Ends inScope at *
  cases end_eq : x { s with scopes := [] :: s.scopes } <;> rw [end_eq] at ends <;> exact ends

theorem ends_looped {x : Parse α} {s : State} {ok : α → State → Prop}
    {bad : Diagnostic → State → Prop}
    (ends : Ends x { s with loopDepth := s.loopDepth + 1 }
      (fun a s' => ok a { s' with loopDepth := s'.loopDepth - 1 })
      fun d s' => bad d { s' with loopDepth := s'.loopDepth - 1 }) : Ends (inLoop x) s ok bad := by
  unfold Ends inLoop at *
  cases end_eq : x { s with loopDepth := s.loopDepth + 1 } <;> rw [end_eq] at ends <;> exact ends

theorem Went.turn {s s' : State} (ahead : s'.ahead = s.ahead) (rest : s'.rest = s.rest)
    (diagnostics : s'.diagnostics = s.diagnostics) : Went source s false s' :=
  (Stepped.of_act (.turn ahead rest diagnostics)).went

/-- Before and behind a part that goes on, nothing is changed that it looks at. -/
theorem Goes.between {x : Parse α} {given : List Lexeme} {b s m : State}
    (goes : Goes source marks rounds x) (midway : Midway source given marks b s)
    (within : s.budget source < rounds) (before : Went source s false m)
    (after : State → State) (turn : ∀ s', Went source s' false (after s')) :
    Ends x m (fun _ s' => ∃ took, Went source s took (after s'))
      fun d s' => Faulty source b d (after s') := by
  have less := before.budget midway.readyHere
  refine (goes given b m (midway.on before) (by omega)).mono ?_ fun d s' faulty =>
    faulty.on (turn s')
  rintro a s' ⟨took, went⟩
  exact ⟨_, (before.trans went).trans (turn s')⟩

theorem Goes.inScope {x : Parse α} (goes : Goes source marks rounds x) :
    Goes source marks rounds (inScope x) := by
  intro given b s midway within
  apply ends_scoped
  refine goes.between midway within ?_ (fun s' => { s' with scopes := s'.scopes.drop 1 })
    fun _ => ?_ <;> exact .turn rfl rfl rfl

theorem Goes.inLoop {x : Parse α} (goes : Goes source marks rounds x) :
    Goes source marks rounds (inLoop x) := by
  intro given b s midway within
  apply ends_looped
  refine goes.between midway within ?_ (fun s' => { s' with loopDepth := s'.loopDepth - 1 })
    fun _ => ?_ <;> exact .turn rfl rfl rfl

/-! ### Putting nodes together -/

/-- A part that takes no token and may fail for a proper cause at `place`. -/
def Refuses (source : Source) (place : Nat) (x : Parse α) : Prop :=
  ∀ s, Ends x s (fun _ s' => s' = s) fun d s' =>
    s' = s ∧ ∃ cause : Cause, cause.isProper = true ∧ d = Diagnostic.locate source.text place cause

variable {place : Nat}

theorem refuses_pure (a : α) : Refuses source place (pure a) := fun _ => ends_pure rfl

theorem refuses_fail {cause : Cause} (proper : cause.isProper = true) :
    Refuses source place (fail source place cause : Parse α) :=
  fun _ => ends_throw ⟨rfl, cause, proper, rfl⟩

theorem refuses_ite {c : Prop} [Decidable c] {x y : Parse α} (yes : Refuses source place x)
    (no : Refuses source place y) : Refuses source place (if c then x else y) := by
  split
  · exact yes
  · exact no

theorem Refuses.bind {x : Parse α} {f : α → Parse β} (first : Refuses source place x)
    (rest : ∀ a, Refuses source place (f a)) : Refuses source place (x >>= f) := by
  intro s
  refine ends_bind ((first s).mono ?_ fun _ _ => id)
  rintro a _ rfl
  exact rest a _

theorem Refuses.goes {x : Parse α} (refuses : Refuses source place x)
    (inside : place ∈ marks) : Goes source marks rounds x := by
  intro given b s midway within
  refine (refuses s).mono ?_ ?_
  · rintro a _ rfl
    exact ⟨false, .refl _⟩
  · rintro d _ ⟨rfl, cause, proper, same⟩
    exact ⟨place, cause, midway.marked place inside, proper, same⟩

/-! ### Beginnings -/

/-- A statement fails without a token taken: nothing is ahead, or a `;`, or no nesting is left. -/
structure Declined (source : Source) (deep : Bool) (s : State) (d : Diagnostic) (s' : State) :
    Prop where
  went : Went source (s.look source 1) false s'
  cause : ∃ cause : Cause, cause.isProper = true ∧
    d = Diagnostic.locate source.text ((s.look source 1).front source) cause
  reason : (s.look source 1).ahead = [] ∨
    (s.look source 1).ahead.head?.map Prod.snd = some (.sym .semicolon) ∨
    deep = true ∧ s' = s.look source 1

/-- How a statement from `s` on fails. -/
def Fails (source : Source) (deep : Bool) (s : State) (d : Diagnostic) (s' : State) : Prop :=
  Faulty source s d s' ∨ Declined source deep s d s'

theorem Fails.declined {deep : Bool} {s s' : State} {cause : Cause} (proper : cause.isProper = true)
    (went : Went source (s.look source 1) false s')
    (reason : (s.look source 1).ahead = [] ∨
      (s.look source 1).ahead.head?.map Prod.snd = some (.sym .semicolon) ∨
      deep = true ∧ s' = s.look source 1) :
    Fails source deep s
      (Diagnostic.locate source.text ((s.look source 1).front source) cause) s' :=
  .inr ⟨went, ⟨cause, proper, rfl⟩, reason⟩

/-- A part that may come first in a statement, for so many rounds. -/
def Begins (source : Source) (deep : Bool) (rounds : Nat) (x : Parse α) : Prop :=
  ∀ given s, Given source given → Ready source given s → s.budget source < rounds →
    Ends x s (fun _ => Went source s true) (Fails source deep s)

variable {deep : Bool}

/-- What is to blame from one state on is to blame from an earlier one on. -/
theorem Faulty.from {b s s' : State} {d : Diagnostic} {took : Bool} (went : Went source b took s)
    (faulty : Faulty source s d s') : Faulty source b d s' := by
  obtain ⟨position, cause, ⟨m, t, t', first, second, some, front⟩, proper, same⟩ := faulty
  refine ⟨position, cause, ⟨m, _, t', went.trans first, second, ?_, front⟩, proper, same⟩
  rw [Bool.or_assoc, some, Bool.or_true]

theorem Fails.of_look {s s' : State} {d : Diagnostic}
    (fails : Fails source deep (s.look source 1) d s') : Fails source deep s d s' := by
  rcases fails with faulty | ⟨went, cause, reason⟩
  · exact .inl (faulty.from s.stepped_look.went)
  · rw [State.look_look] at went cause reason
    exact .inr ⟨went, cause, reason⟩

/-- Once the next token is looked at, a statement begins there. -/
theorem Begins.looked {x : Parse α} {given : List Lexeme} {s : State}
    (begins : Begins source deep rounds x) (text : Given source given)
    (ready : Ready source given s) (within : s.budget source < rounds) :
    Ends x (s.look source 1) (fun _ => Went source s true) (Fails source deep s) := by
  have looked := went_look source s
  have less := looked.budget ready
  exact (begins given _ text (looked.ready ready) (by omega)).mono
    (fun _ _ went => looked.trans went) fun _ _ => Fails.of_look

/-- Behind a token, it goes on. -/
theorem Begins.goes {x : Parse α} (begins : Begins source deep rounds x) :
    Goes source marks rounds x := by
  intro given b s midway within
  refine (begins given s midway.text midway.readyHere within).mono
    (fun a s' went => ⟨true, went⟩) fun d s' failed => ?_
  rcases failed with faulty | ⟨went, ⟨cause, proper, same⟩, -⟩
  · exact faulty.from midway.went
  · exact ⟨_, cause, ⟨_, _, _, midway.went.on s.stepped_look.went, went, rfl, rfl⟩, proper, same⟩

/-- A part behind a token that a statement from `s` on has taken. -/
theorem Goes.begun {x : Parse α} {given : List Lexeme} {s m : State}
    (goes : Goes source marks rounds x) (midway : Midway source given marks s m)
    (within : m.budget source < rounds) :
    Ends x m (fun _ => Went source s true) (Fails source deep s) := by
  refine (goes given s m midway within).mono ?_ fun _ _ => .inl
  rintro a s' ⟨took, went⟩
  exact midway.went.on went

theorem Begins.within {x : Parse α} (begins : Begins source deep source.allowance x) :
    Begins source deep rounds x :=
  fun given s text ready _ => begins given s text ready (ready.budget_lt text)

theorem begins_stalled : Begins source deep 0 (stalled source : Parse α) :=
  fun _ _ _ _ within => absurd within (Nat.not_lt_zero _)

/-- Behind a beginning, a token is taken and there is less to come. -/
theorem Begins.bind {x : Parse α} {f : α → Parse β} (begins : Begins source deep (rounds + 1) x)
    (rest : ∀ a, Goes source [] rounds (f a)) : Begins source deep (rounds + 1) (x >>= f) := by
  intro given s text ready within
  refine ends_bind ((begins given s text ready within).mono (fun a m went => ?_) fun _ _ => id)
  have less := went.budget ready
  rw [Bool.toNat_true] at less
  exact (rest a).begun ⟨text, ready, went, by simp⟩ (by omega)

/-- Behind a beginning, the position can be blamed where it starts. -/
theorem Begins.placed {x : Parse α} {f : Nat → α → Parse β}
    (begins : Begins source deep (rounds + 1) x)
    (rest : ∀ here a, Goes source [here] rounds (f here a)) :
    Begins source deep (rounds + 1) (position source >>= fun here => x >>= f here) := by
  intro given s text ready within
  have looked := went_look source s
  have less := looked.budget ready
  apply ends_bind
  rw [Ends, position_eq]
  refine ends_bind ((begins given _ text (looked.ready ready) (by omega)).mono
    (fun a m went => ?_) fun _ _ => Fails.of_look)
  have further := went.budget (looked.ready ready)
  rw [Bool.toNat_true] at further
  refine (rest _ a).begun ⟨text, ready, looked.trans went, ?_⟩ (by omega)
  simpa using ⟨_, false, true, looked, went, rfl, rfl⟩

/-- The token ahead is taken; where it stands can be blamed behind it. -/
theorem Goes.advanced {f : Option Token → Parse α} {given : List Lexeme} {s : State}
    {position : Nat} {t : Token} {ahead : List (Nat × Token)}
    (goes : Goes source [position] source.allowance (f (some t)))
    (text : Given source given) (ready : Ready source given s)
    (next : (s.look source 1).ahead = (position, t) :: ahead) :
    Ends (advance source >>= f) (s.look source 1) (fun _ => Went source s true)
      (Fails source deep s) := by
  have looked := went_look source s
  have taken : Went source (s.look source 1) true ((s.look source 1).behind t ahead) :=
    (Stepped.of_act (.take next)).went
  have midway : Midway source given [position] s ((s.look source 1).behind t ahead) := by
    refine ⟨text, ready, looked.trans taken, ?_⟩
    simpa using ⟨_, false, true, looked, taken, rfl, State.front_ahead next⟩
  apply ends_bind
  rw [Ends, advance_some source (s.look_look.symm ▸ next), State.look_look]
  exact goes.begun midway (midway.readyHere.budget_lt text)

end

end MathScript.Parse
