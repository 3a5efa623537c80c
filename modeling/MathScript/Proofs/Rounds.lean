import MathScript.Proofs.Charge
import MathScript.Proofs.Parts
import MathScript.Proofs.Statements

/-!
Statement lists round by round. A round that does not end its list leaves fewer lexemes than it
found, whether its statement was read or failed, with one exception: where no nesting is left, and
in front of a token that ends another list, the round only puts its diagnostic down. Then every
round that follows does the same until no more diagnostics are kept.
-/

namespace MathScript

namespace Parse

variable {source : Source} {given : List Lexeme}

/-- Through a list of statements. -/
def Listed (source : Source) (b s : State) : Prop :=
  ∃ took es, Passage source true b took es s

namespace Listed

variable {b m s : State} {took : Bool}

theorem refl (s : State) : Listed source s s := ⟨_, _, .refl true s⟩

theorem trans (first : Listed source b m) (second : Listed source m s) : Listed source b s := by
  obtain ⟨_, _, first⟩ := first
  obtain ⟨_, _, second⟩ := second
  exact ⟨_, _, first.trans second⟩

theorem ready (listed : Listed source b s) (ready : Ready source given b) :
    Ready source given s := by
  obtain ⟨_, _, passage⟩ := listed
  exact (passage.moved ready).ready

theorem budget_le (listed : Listed source b s) (ready : Ready source given b) :
    s.budget source ≤ b.budget source := by
  obtain ⟨_, _, passage⟩ := listed
  exact (passage.moved ready).less.budget

/-- With fewer lexemes left, less can be taken or put down. -/
theorem budget_lt (listed : Listed source b s) (ready : Ready source given b)
    (fewer : s.left.length < b.left.length) : s.budget source < b.budget source := by
  obtain ⟨_, es, passage⟩ := listed
  have sizes := congrArg List.length (passage.moved ready).diagnostics
  simp only [Array.length_toList, List.length_append] at sizes
  rw [State.budget, State.budget]
  omega

end Listed

theorem Went.listed {b s : State} {took : Bool} (went : Went source b took s) :
    Listed source b s :=
  ⟨_, _, went.choose_spec.toList⟩

theorem Stepped.listed {b s : State} {took : Bool} (stepped : Stepped source b took s) :
    Listed source b s :=
  stepped.went.listed

/-! ### Skipping -/

theorem ends_eatAll {s : State} (sym : Sym) (fuel : Nat) (ready : Ready source given s)
    (within : s.budget source < fuel) :
    Ends (eatAll source sym fuel) s
      (fun _ s' => (∃ took, Stepped source s took s') ∧ s'.Poised ∧
        s'.ahead.head?.map Prod.snd ≠ some (.sym sym)) fun _ _ => False := by
  induction fuel generalizing s with
  | zero => exact absurd within (Nat.not_lt_zero _)
  | succ fuel ih =>
      refine ends_bind ((ends_eaten source sym s).mono (fun taken m ended => ?_) fun _ _ => id)
      cases taken with
      | true =>
          rw [if_pos rfl] at ended
          obtain ⟨position, ahead, next, rfl⟩ := ended
          have taken : Stepped source s true _ := .taking next
          have less := taken.went.budget ready
          rw [Bool.toNat_true] at less
          refine (ih (taken.went.ready ready) (by omega)).mono ?_ fun _ _ => id
          rintro _ s' ⟨⟨took, stepped⟩, rest⟩
          exact ⟨⟨_, taken.trans stepped⟩, rest⟩
      | false =>
          rw [if_neg Bool.false_ne_true] at ended
          obtain ⟨rfl, other⟩ := ended
          exact ends_pure ⟨⟨false, s.stepped_look⟩, s.poised_look, other⟩

/-- Skipping takes a token, or it ends at the next one. -/
theorem ends_skipping {s : State} (fuel depth : Nat) (ready : Ready source given s)
    (within : s.budget source < fuel) :
    Ends (synchronize source fuel depth) s
      (fun _ s' => ∃ took, Stepped source s took s' ∧ (took = true ∨
        s' = s.look source 1 ∧ (s'.ahead = [] ∨
          ∃ t, s'.ahead.head?.map Prod.snd = some t ∧ ending t = true))) fun _ _ => False := by
  induction fuel generalizing s depth with
  | zero => exact absurd within (Nat.not_lt_zero _)
  | succ fuel ih =>
      apply ends_bind
      rw [Ends, peek_eq]
      cases ahead : (s.look source 1).ahead with
      | nil => exact ends_pure ⟨false, s.stepped_look, .inr ⟨rfl, .inl ahead⟩⟩
      | cons next rest =>
          obtain ⟨position, t⟩ := next
          have next : (State.look source (s.look source 1) 1).ahead = (position, t) :: rest :=
            s.look_look.symm ▸ ahead
          have taken : Stepped source s true ((s.look source 1).behind t rest) := .taking ahead
          have less := taken.went.budget ready
          rw [Bool.toNat_true] at less
          dsimp only [List.head?_cons, Option.map_some]
          split
          · apply ends_bind
            rw [Ends, advance_some source next, State.look_look]
            exact ends_pure ⟨true, taken, .inl rfl⟩
          · split
            · next stop =>
                have ends : ending t = true := by rcases stop.2 with rfl | rfl <;> rfl
                exact ends_pure ⟨false, s.stepped_look,
                  .inr ⟨rfl, .inr ⟨t, by rw [ahead]; rfl, ends⟩⟩⟩
            · apply ends_bind
              rw [Ends, advance_some source next, State.look_look]
              refine (ih _ (taken.went.ready ready) (by omega)).mono ?_ fun _ _ => id
              rintro _ s' ⟨took, stepped, -⟩
              exact ⟨true, by simpa using taken.trans stepped, .inl rfl⟩

/-! ### One round -/

/-- Whether a list of statements stops in front of a token. -/
def Stop.stops : Stop → Token → Bool
  | .input, _ => false
  | .brace, t => t == .sym .rbrace
  | .until, t => t == .word "until"

theorem atStop_eq (source : Source) (stop : Stop) (s : State) :
    atStop source stop s = .ok
      (match (s.look source 1).ahead.head?.map Prod.snd with
        | none => true
        | some t => stop.stops t) (s.look source 1) := by
  unfold atStop
  rw [bind_completed (peek_eq source s)]
  cases (s.look source 1).ahead.head?.map Prod.snd with
  | none => rfl
  | some t => cases stop <;> rfl

/-- In front of the end of its list, or of nothing. -/
def State.Stopped (stop : Stop) (s : State) : Prop :=
  s.Poised ∧ (s.ahead = [] ∨ ∃ t, s.ahead.head?.map Prod.snd = some t ∧ stop.stops t = true)

theorem ends_separating (source : Source) (stop : Stop) (s : State) :
    Ends (separated source stop) s (fun _ s' => ∃ took, Stepped source s took s')
      fun _ _ => False := by
  change Ends (if s.afterBrace then _ else _) s _ _
  split
  · exact ends_pure ⟨false, .refl s⟩
  · refine ends_bind ((ends_eaten source .semicolon s).mono (fun taken m ended => ?_) fun _ _ => id)
    cases taken with
    | true =>
        rw [if_pos rfl] at ended
        obtain ⟨position, ahead, next, rfl⟩ := ended
        exact ends_pure ⟨true, .taking next⟩
    | false =>
        rw [if_neg Bool.false_ne_true] at ended
        obtain ⟨rfl, -⟩ := ended
        change Ends (atStop source stop) _ _ _
        rw [Ends, atStop_eq, State.look_look]
        exact ⟨false, s.stepped_look⟩

/-- Where no more diagnostics are kept, one more changes nothing that is looked at. -/
theorem Ready.record_full {s : State} (ready : Ready source given s)
    (full : s.full source.limits.errors = true) (d : Diagnostic) :
    Stepped source s false (s.record source.limits.errors d) := by
  obtain ⟨ahead, rest⟩ := ready.bare full
  have same : s.record source.limits.errors d = { s with ahead := [], rest := [] } := by
    simp [State.record, full]
  rw [same]
  exact .of_act (.turn ahead.symm rest.symm rfl)

/-- Where a token was taken, a lexeme less is left. -/
theorem Went.left_lt {b s : State} (went : Went source b true s) (ready : Ready source given b) :
    s.left.length < b.left.length := by
  obtain ⟨es, passage⟩ := went
  rcases passage.charged ready with charged | ⟨full, es₁, count, position, t, -, -, fewer, -⟩
  · rw [Charged, Bool.toNat_true] at charged
    omega
  · rw [(passage.moved ready).ready.spent full, List.length_nil]
    omega

/-- The skipping behind a diagnostic of a statement. -/
theorem ends_recover_skipping {s : State} (d : Diagnostic) (text : Given source given)
    (ready : Ready source given (s.record source.limits.errors d)) :
    Ends (recover source d) s
      (fun _ s' => ∃ took, Stepped source (s.record source.limits.errors d) took s' ∧
        (took = true ∨ s' = (s.record source.limits.errors d).look source 1 ∧ (s'.ahead = [] ∨
          ∃ t, s'.ahead.head?.map Prod.snd = some t ∧ ending t = true))) fun _ _ => False :=
  ends_bind (ends_modify (ends_skipping source.allowance 0 ready (ready.budget_lt text)))

/-- A statement from `b` on has failed with a token taken: its diagnostic is put down, and what
follows is skipped. -/
theorem ends_recovering {b m s : State} {took took' : Bool} {cause : Cause}
    (text : Given source given) (ready : Ready source given b) (first : Went source b took m)
    (second : Went source m took' s) (some : (took || took') = true)
    (proper : cause.isProper = true) :
    Ends (recover source (Diagnostic.locate source.text (m.front source) cause)) s
      (fun _ s' => Listed source b s' ∧ s'.left.length < b.left.length) fun _ _ => False := by
  have went : Went source b true s := some ▸ first.trans second
  have readyS := went.ready ready
  have fewer := went.left_lt ready
  cases full : s.full source.limits.errors with
  | true =>
      have recorded := readyS.record_full full
        (Diagnostic.locate source.text (m.front source) cause)
      refine (ends_recover_skipping _ text (recorded.went.ready readyS)).mono ?_ fun _ _ => id
      rintro _ s' ⟨took₃, skipped, -⟩
      have later := recorded.trans skipped
      have less := (later.choose_spec.moved readyS).left.length_le
      exact ⟨went.listed.trans later.listed, by omega⟩
  | false =>
      have recorded := Moved.record (d := Diagnostic.locate source.text (m.front source) cause)
        readyS full
      refine (ends_recover_skipping _ text recorded.ready).mono ?_ fun _ _ => id
      rintro _ s' ⟨took₃, skipped, -⟩
      have less := (skipped.choose_spec.moved recorded.ready).left.length_le
      have less' := recorded.left.length_le
      refine ⟨⟨_, _, (Passage.refl true b).failed first.choose_spec second.choose_spec proper full
        skipped.choose_spec (.inl ?_)⟩, by omega⟩
      rw [some, Bool.true_or]

/-! ### No nesting left -/

/-- An expression where no nesting is left. -/
def Deep (source : Source) (expression : Parse Typed) : Prop :=
  ∀ s position t ahead, s.ahead = (position, t) :: ahead →
    expression s = .error
      (Diagnostic.locate source.text position (.nestedTooDeep source.limits.nesting)) s

section

variable {expression : Parse Typed} {deep : Bool}
variable {s : State} {position : Nat} {t : Token} {ahead : List (Nat × Token)}

theorem statement_deep (hard : Deep source expression) (next : s.ahead = (position, t) :: ahead)
    (ends : ending t = true) :
    statement source expression s = .error
      (Diagnostic.locate source.text position (.nestedTooDeep source.limits.nesting)) s := by
  have looked : s.look source 1 = s := State.look_poised fun none => by simp [next] at none
  have other : ∀ word, word = "var" ∨ word = "const" →
      s.ahead.head?.map Prod.snd ≠ some (.word word) := by
    rintro word reserved same
    obtain rfl : t = .word word := by simpa [next] using same
    rcases reserved with rfl | rfl <;> cases ends
  have checked : checkWord source "var" s = .ok false s := by
    rw [checkWord_eq, looked, beq_eq_false_iff_ne.mpr (other "var" (.inl rfl))]
  have eaten : eatWord source "const" s = .ok false s := by
    obtain ⟨taken, s', done, ended⟩ := (ends_eatenWord source "const" s).completes
    cases taken with
    | true =>
        obtain ⟨position', ahead', next', -⟩ := ended
        rw [looked] at next'
        exact absurd (by rw [next']; rfl) (other "const" (.inr rfl))
    | false => rw [done, ended.1, looked]
  unfold statement
  rw [bind_completed checked, if_neg Bool.false_ne_true, bind_completed eaten,
    if_neg Bool.false_ne_true]
  exact hard s position t ahead next

/-- Where no nesting is left, and in front of a token that ends another list. -/
structure Stuck (deep : Bool) (stop : Stop) (position : Nat) (s : State) : Prop where
  deep : deep = true
  next : ∃ t ahead, s.ahead = (position, t) :: ahead ∧ ending t = true ∧ stop.stops t = false

/-- What a round of a list of statements comes to. -/
inductive Round (source : Source) (deep : Bool) (stop : Stop) (s : State)
    (again : List Typed → Parse (List Typed)) : EStateM.Result Diagnostic State (List Typed) → Prop
  | done {items : List Typed} {s' : State} (listed : Listed source s s')
      (stopped : s'.Stopped stop) : Round source deep stop s again (.ok items s')
  | more {items : List Typed} {s' : State} (listed : Listed source s s')
      (fewer : s'.left.length < s.left.length) : Round source deep stop s again (again items s')
  /-- Only a diagnostic is put down, which is not the last one. -/
  | stuck {items : List Typed} {m : State} {position : Nat} {d : Diagnostic}
      (listed : Listed source s m) (stuck : Stuck deep stop position m)
      (located : d = Diagnostic.locate source.text position
        (.nestedTooDeep source.limits.nesting))
      (open' : (m.record source.limits.errors d).full source.limits.errors = false) :
      Round source deep stop s again (again items (m.record source.limits.errors d))

theorem attempt_ok {α : Type} {x : Parse α} {a : α} {s s' : State} (done : x s = .ok a s') :
    attempt x s = .ok (.ok a) s' := by
  simp [attempt, done]

theorem attempt_error {α : Type} {x : Parse α} {d : Diagnostic} {s s' : State}
    (failed : x s = .error d s') : attempt x s = .ok (.error d) s' := by
  simp [attempt, failed]

/-- What holds before a round and is left of it is left in front of the round. -/
theorem Round.before {m : State} {stop : Stop} {again : List Typed → Parse (List Typed)}
    {result : EStateM.Result Diagnostic State (List Typed)} (ready : Ready source given s)
    (listed : Listed source s m) (round : Round source deep stop m again result) :
    Round source deep stop s again result := by
  cases round with
  | done listed' stopped => exact .done (listed.trans listed') stopped
  | more listed' fewer =>
      obtain ⟨_, _, passage⟩ := listed
      have less := (passage.moved ready).left.length_le
      exact .more (.trans ⟨_, _, passage⟩ listed') (by omega)
  | stuck listed' stuck located open' => exact .stuck (listed.trans listed') stuck located open'

variable {again : List Typed → Parse (List Typed)}

/-- The diagnostic of a statement that failed without a token taken takes the place of one, or a
token is skipped behind it, or the round is stuck. -/
theorem round_deep {cause : Cause} (text : Given source given) (ready : Ready source given s)
    (bottom : deep = true) (hard : Deep source expression) (stop : Stop) (items : List Typed)
    (poised : s.Poised) (next : s.ahead = (position, t) :: ahead) (goes : stop.stops t = false)
    (proper : cause.isProper = true) (failed : statement source expression s =
      .error (Diagnostic.locate source.text (s.front source) cause) s) :
    Round source deep stop s again ((do
      recover source (Diagnostic.locate source.text (s.front source) cause)
      again items) s) := by
  have some : s.left ≠ [] := by simp [State.left_ahead next]
  have open' := ready.open' some
  generalize located : Diagnostic.locate source.text (s.front source) cause = d at failed ⊢
  have recorded := Moved.record (d := d) ready open'
  obtain ⟨_, s', recovered, took, skipped, behind⟩ :=
    (ends_recover_skipping d text recorded.ready).completes
  have fewer := (skipped.choose_spec.moved recorded.ready).left.length_le
  have fails : (false || false || took) = true ∨
      s.left ≠ [] ∧ (s.record source.limits.errors d).left = [] → Listed source s s' := by
    subst located
    exact fun progress => ⟨_, _, (Passage.refl true s).failed (.refl false s) (.refl false s)
      proper open' skipped.choose_spec progress⟩
  rw [bind_completed recovered]
  obtain ⟨-, ⟨-, ahead', rest'⟩ | ⟨more, same⟩⟩ := State.record_open open' d
  · have none : (s.record source.limits.errors d).left = [] := by simp [State.left, ahead', rest']
    refine .more (fails (.inr ⟨some, none⟩)) ?_
    rw [none, List.length_nil] at fewer
    exact Nat.lt_of_le_of_lt fewer (List.length_pos_iff.mpr some)
  · rcases behind with rfl | ⟨rfl, last⟩
    · have less := skipped.went.left_lt recorded.ready
      exact .more (fails (.inl rfl)) (Nat.lt_of_lt_of_le less recorded.left.length_le)
    · -- Nothing was skipped, so the token ahead ends another list.
      have poised' : (s.record source.limits.errors d).Poised := by
        rw [same]
        exact poised
      have next' : (s.record source.limits.errors d).ahead = (position, t) :: ahead := by
        rw [same]
        exact next
      rw [State.look_poised poised'] at last ⊢
      rw [next'] at last
      rcases last with none | ⟨t', same', ends⟩
      · cases none
      · obtain rfl : t' = t := by simpa using same'.symm
        have deep' := statement_deep hard next ends
        rw [failed] at deep'
        injection deep' with located'
        exact .stuck (.refl s) ⟨bottom, t', ahead, next, ends, goes⟩ located' more

theorem round_failed {d : Diagnostic} {m : State} (text : Given source given)
    (ready : Ready source given s) (reads : Begins source deep source.allowance expression)
    (hard : deep = true → Deep source expression) (stop : Stop)
    (items : List Typed) (poised : s.Poised) (next : s.ahead = (position, t) :: ahead)
    (goes : stop.stops t = false) (other : t ≠ .sym .semicolon)
    (failed : statement source expression s = .error d m) :
    Round source deep stop s again ((do recover source d; again items) m) := by
  have begins := statement_begins source reads given s text ready (ready.budget_lt text)
  rcases begins.of_error failed with
    ⟨place, cause, ⟨m', took, took', first, second, some, rfl⟩, proper, rfl⟩ |
    ⟨-, ⟨cause, proper, rfl⟩, reason⟩
  · obtain ⟨_, s', recovered, listed, fewer⟩ :=
      (ends_recovering text ready first second some proper).completes
    rw [bind_completed recovered]
    exact .more listed fewer
  · -- A token is ahead, and it is no `;`.
    rw [State.look_poised poised] at reason failed ⊢
    rw [next] at reason
    rcases reason with none | semicolon | ⟨bottom, rfl⟩
    · cases none
    · exact absurd (by simpa using semicolon) other
    · exact round_deep text ready bottom (hard bottom) stop items poised next goes proper failed

/-- Behind a statement that was read. -/
theorem round_read {item : Typed} {m : State} (text : Given source given)
    (ready : Ready source given s) (stop : Stop) (items : List Typed)
    (went : Went source s true m) :
    Round source deep stop s again ((do
      if ← separated source stop then again (item :: items)
      else
        let here ← Parse.position source
        recover source (Diagnostic.locate source.text here (.missingSeparator (← peek source)))
        again (item :: items)) m) := by
  obtain ⟨b, m₁, separated', took, stepped⟩ := (ends_separating source stop m).completes
  have went₁ := went.on stepped.went
  rw [bind_completed separated']
  cases b with
  | true => exact .more went₁.listed (went₁.left_lt ready)
  | false =>
      have went₂ := went₁.on m₁.stepped_look.went
      have proper : (Cause.missingSeparator
        ((m₁.look source 1).ahead.head?.map Prod.snd)).isProper = true := rfl
      obtain ⟨_, s', recovered, listed, fewer⟩ :=
        (ends_recovering text ready went₂ (.refl _) rfl proper).completes
      rw [if_neg Bool.false_ne_true, bind_completed (position_eq source m₁),
        bind_completed (peek_eq source _), State.look_look, bind_completed recovered]
      exact .more listed fewer

theorem statements_round (text : Given source given) (ready : Ready source given s)
    (reads : Begins source deep source.allowance expression)
    (hard : deep = true → Deep source expression) (stop : Stop) (fuel : Nat) (items : List Typed) :
    Round source deep stop s (statements source expression stop fuel)
      (statements source expression stop (fuel + 1) items s) := by
  obtain ⟨_, s₁, eaten, ⟨took, skipped⟩, poised, other⟩ :=
    (ends_eatAll .semicolon source.allowance ready (ready.budget_lt text)).completes
  have ready₁ := skipped.went.ready ready
  have looked : s₁.look source 1 = s₁ := State.look_poised poised
  refine Round.before ready skipped.listed ?_
  rw [statements, bind_completed eaten]
  have asked := atStop_eq source stop s₁
  rw [looked] at asked
  cases ahead : s₁.ahead with
  | nil =>
      rw [ahead] at asked
      rw [bind_completed asked]
      exact .done (.refl s₁) ⟨poised, .inl ahead⟩
  | cons next rest =>
      obtain ⟨position, t⟩ := next
      rw [ahead] at asked
      cases stops : stop.stops t with
      | true =>
          rw [bind_completed (asked.trans (by rw [← stops]; rfl) : _ = .ok true s₁)]
          exact .done (.refl s₁) ⟨poised, .inr ⟨t, by rw [ahead]; rfl, stops⟩⟩
      | false =>
          rw [bind_completed (asked.trans (by rw [← stops]; rfl) : _ = .ok false s₁),
            if_neg Bool.false_ne_true]
          have begins := statement_begins source reads given s₁ text ready₁ (ready₁.budget_lt text)
          cases result : statement source expression s₁ with
          | ok item m =>
              rw [bind_completed (attempt_ok result)]
              exact round_read text ready₁ stop items (begins.of_ok result)
          | error d m =>
              have plain : t ≠ .sym .semicolon := by
                rintro rfl
                exact other (by rw [ahead]; rfl)
              rw [bind_completed (attempt_error result)]
              exact round_failed text ready₁ reads hard stop items poised ahead stops plain result

/-! ### Whole lists -/

theorem eat_other {sym : Sym} (poised : s.Poised)
    (other : s.ahead.head?.map Prod.snd ≠ some (.sym sym)) : eat source sym s = .ok false s := by
  obtain ⟨taken, s', done, ended⟩ := (ends_eaten source sym s).completes
  rw [State.look_poised poised] at ended
  cases taken with
  | true =>
      obtain ⟨position', ahead', next', -⟩ := ended
      exact absurd (by rw [next']; rfl) other
  | false => rw [done, ended.1]

theorem eatAll_other {sym : Sym} {fuel : Nat} (allowed : 0 < fuel) (poised : s.Poised)
    (other : s.ahead.head?.map Prod.snd ≠ some (.sym sym)) :
    eatAll source sym fuel s = .ok () s := by
  obtain ⟨fuel, rfl⟩ := Nat.exists_eq_succ_of_ne_zero (Nat.ne_of_gt allowed)
  rw [eatAll, bind_completed (eat_other poised other)]
  rfl

theorem synchronize_nothing {fuel depth : Nat} (allowed : 0 < fuel) (ahead : s.ahead = [])
    (rest : s.rest = []) : synchronize source fuel depth s = .ok () s := by
  obtain ⟨fuel, rfl⟩ := Nat.exists_eq_succ_of_ne_zero (Nat.ne_of_gt allowed)
  have peeked := peek_eq source s
  rw [State.look_poised fun _ => rest, ahead] at peeked
  rw [synchronize, bind_completed peeked]
  rfl

theorem synchronize_ending {fuel : Nat} (allowed : 0 < fuel)
    (next : s.ahead = (position, t) :: ahead) (ends : ending t = true) :
    synchronize source fuel 0 s = .ok () s := by
  obtain ⟨fuel, rfl⟩ := Nat.exists_eq_succ_of_ne_zero (Nat.ne_of_gt allowed)
  have peeked := peek_eq source s
  rw [State.look_poised fun none => by simp [next] at none, next] at peeked
  have stops : t ≠ .sym .semicolon ∧ (t = .sym .rbrace ∨ t = .word "until") := by
    unfold ending at ends
    split at ends <;> simp_all
  rw [synchronize, bind_completed peeked]
  simp [stops]
  rfl

/-- Where nothing is left, a list of statements is at its end. -/
theorem statements_nothing (text : Given source given) (stop : Stop) (fuel : Nat)
    (items : List Typed) (ahead : s.ahead = []) (rest : s.rest = []) :
    statements source expression stop (fuel + 1) items s = .ok items.reverse s := by
  have poised : s.Poised := fun _ => rest
  have asked := atStop_eq source stop s
  rw [State.look_poised poised, ahead] at asked
  have allowed : 0 < source.allowance := Nat.zero_lt_of_lt text.allowed
  rw [statements, bind_completed (eatAll_other allowed poised (by simp [ahead])),
    bind_completed asked]
  rfl

/-- A stuck round puts its diagnostic down and does nothing else. -/
theorem statements_stuck {stop : Stop} {d : Diagnostic} (text : Given source given)
    (ready : Ready source given s) (hard : Deep source expression)
    (stuck : Stuck deep stop position s)
    (located : d = Diagnostic.locate source.text position (.nestedTooDeep source.limits.nesting))
    (fuel : Nat) (items : List Typed) :
    statements source expression stop (fuel + 1) items s =
      statements source expression stop fuel items (s.record source.limits.errors d) := by
  obtain ⟨t, ahead, next, ends, goes⟩ := stuck.next
  have poised : s.Poised := fun none => by simp [next] at none
  have other : s.ahead.head?.map Prod.snd ≠ some (.sym .semicolon) := by
    rw [next]
    rintro ⟨⟩
    cases ends
  have allowed : 0 < source.allowance := Nat.zero_lt_of_lt text.allowed
  have asked : atStop source stop s = .ok false s := by
    rw [atStop_eq, State.look_poised poised, next, ← goes]
    rfl
  have failed := statement_deep hard next ends
  rw [← located] at failed
  have recovered : recover source d s = .ok () (s.record source.limits.errors d) := by
    rw [recover, bind_completed (rfl : record source d s = .ok () (s.record _ d))]
    obtain ⟨-, ⟨-, ahead', rest'⟩ | ⟨-, same⟩⟩ :=
      State.record_open (ready.open' (by simp [State.left_ahead next])) d
    · exact synchronize_nothing allowed ahead' rest'
    · have next' : (s.record source.limits.errors d).ahead = (position, t) :: ahead := by
        rw [same]
        exact next
      exact synchronize_ending allowed next' ends
  rw [statements, bind_completed (eatAll_other allowed poised other), bind_completed asked,
    if_neg Bool.false_ne_true, bind_completed (attempt_error failed)]
  exact bind_completed recovered

/-- A stuck list puts one diagnostic down until no more are kept. -/
theorem statements_jammed {stop : Stop} {d : Diagnostic} (text : Given source given)
    (ready : Ready source given s) (hard : Deep source expression)
    (stuck : Stuck deep stop position s)
    (located : d = Diagnostic.locate source.text position (.nestedTooDeep source.limits.nesting))
    (fuel : Nat) (items : List Typed) (within : s.budget source < fuel) :
    ∃ s' count, statements source expression stop fuel items s = .ok items.reverse s' ∧
      s'.left = [] ∧ s'.diagnostics.size = source.limits.errors ∧
      s'.diagnostics.toList = s.diagnostics.toList ++ List.replicate count d := by
  induction fuel generalizing s with
  | zero => exact absurd within (Nat.not_lt_zero _)
  | succ fuel ih =>
      have again := statements_stuck text ready hard stuck located fuel items
      obtain ⟨t, ahead, next, ends, goes⟩ := stuck.next
      have open' := ready.open' (by simp [State.left_ahead next])
      have recorded := Moved.record (d := d) ready open'
      have less := recorded.budget
      rw [Bool.toNat_true] at less
      obtain ⟨pushed, ⟨full, ahead', rest'⟩ | ⟨more, same⟩⟩ := State.record_open open' d
      · obtain ⟨fuel, rfl⟩ := Nat.exists_eq_succ_of_ne_zero (by omega : fuel ≠ 0)
        rw [again, statements_nothing text stop fuel items ahead' rest']
        refine ⟨_, 1, rfl, by simp [State.left, ahead', rest'], ?_, by simp [pushed]⟩
        have size := recorded.ready.kept
        simp only [State.full, decide_eq_true_eq] at full
        omega
      · have stuck' : Stuck deep stop position (s.record source.limits.errors d) := by
          rw [same]
          exact ⟨stuck.deep, t, ahead, next, ends, goes⟩
        obtain ⟨s', count, done, none, size, diagnostics⟩ := ih recorded.ready stuck' (by omega)
        refine ⟨s', count + 1, again.trans done, none, size, ?_⟩
        rw [diagnostics, pushed, Array.toList_push, List.append_assoc, List.replicate_succ]
        rfl

/-- Every list of statements comes to its end. -/
theorem statements_listed (text : Given source given)
    (reads : Begins source deep source.allowance expression)
    (hard : deep = true → Deep source expression) (stop : Stop) (fuel : Nat) {s : State}
    (ready : Ready source given s) (items : List Typed) (within : s.budget source < fuel) :
    ∃ items' s', statements source expression stop fuel items s = .ok items' s' ∧
      Listed source s s' ∧ s'.Stopped stop := by
  induction fuel generalizing s items with
  | zero => exact absurd within (Nat.not_lt_zero _)
  | succ fuel ih =>
      have round := statements_round text ready reads hard stop fuel items
      generalize result : statements source expression stop (fuel + 1) items s = r at round
      cases round with
      | done listed stopped => exact ⟨_, _, rfl, listed, stopped⟩
      | more listed fewer =>
          -- The fuel outlasts what can still be taken or put down: the budget has become less.
          have less := listed.budget_lt ready fewer
          obtain ⟨items', s', done, listed', stopped⟩ := ih (listed.ready ready) _ (by omega)
          exact ⟨items', s', done, listed.trans listed', stopped⟩
      | @stuck items m position d listed stuck located open' =>
          -- The first of the repeated diagnostics is this round's, the others are counted there.
          have ready' := listed.ready ready
          have budget := listed.budget_le ready
          obtain ⟨t, ahead, next, ends, -⟩ := stuck.next
          have openM := ready'.open' (by simp [State.left_ahead next])
          have recorded := Moved.record (d := d) ready' openM
          have less := recorded.budget
          rw [Bool.toNat_true] at less
          have pushed := (State.record_open openM d).1
          obtain ⟨-, ⟨full, -⟩ | ⟨-, same⟩⟩ := State.record_open openM d
          · simp [open'] at full
          · have stuck' : Stuck deep stop position (m.record source.limits.errors d) := by
              rw [same]
              exact ⟨stuck.deep, stuck.next⟩
            obtain ⟨s', count, done, none, size, diagnostics⟩ := statements_jammed text
              recorded.ready (hard stuck.deep) stuck' located fuel items (by omega)
            obtain ⟨took, es, passage⟩ := listed
            have all : s'.diagnostics.toList =
                m.diagnostics.toList ++ List.replicate (count + 1) d := by
              rw [diagnostics, pushed, Array.toList_push, List.append_assoc, List.replicate_succ]
              rfl
            refine ⟨_, s', done,
              ⟨_, _, passage.stuck next ends located openM size all none⟩, ?_⟩
            simp only [State.left, List.append_eq_nil_iff, List.map_eq_nil_iff] at none
            exact ⟨fun _ => none.2, .inl none.1⟩

end

end Parse

end MathScript
