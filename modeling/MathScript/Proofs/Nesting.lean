import MathScript.Proofs.Rounds

/-!
Parts that hold others: control, names with what stands behind them, and lists of statements in
braces or in front of `until`. Each goes on; an operand begins; and one level of nesting after the
other, so does everything that a text can hold.
-/

namespace MathScript.Parse

variable {source : Source} {given : List Lexeme} {marks : List Nat} {rounds place : Nat}
variable {b s s' : State} {took : Bool}

/-! ### Lists behind a token -/

/-- Behind a token of a statement from `b` on that opens a list, with positions to blame that were
passed in front of it. -/
structure Nested (source : Source) (given : List Lexeme) (marks : List Nat) (b s : State) :
    Prop where
  text : Given source given
  ready : Ready source given b
  inside : ∃ m took position t ahead, Went source b took m ∧ m.ahead = (position, t) :: ahead ∧
    opening t = true ∧ Listed source (m.behind t ahead) s ∧ ∀ mark ∈ marks,
      ∃ m₀ took₁ took₂, Went source b took₁ m₀ ∧ Went source m₀ took₂ m ∧ m₀.front source = mark

namespace Nested

theorem listed (nested : Nested source given marks b s) (listed : Listed source s s') :
    Nested source given marks b s' := by
  obtain ⟨text, ready, m, took, position, t, ahead, went, next, opens, inner, marked⟩ := nested
  exact ⟨text, ready, m, took, position, t, ahead, went, next, opens, inner.trans listed, marked⟩

theorem on (nested : Nested source given marks b s) (went : Went source s took s') :
    Nested source given marks b s' :=
  nested.listed went.listed

/-- The token that opened the list is a token of the statement. -/
theorem midway (nested : Nested source given marks b s) : Midway source given marks b s := by
  obtain ⟨text, ready, m, took, position, t, ahead, ⟨es, before⟩, next, opens, ⟨took', es', inner⟩,
    marked⟩ := nested
  refine ⟨text, ready, ⟨_, before.nest next opens inner⟩, fun mark inside => ?_⟩
  obtain ⟨m₀, took₁, took₂, first, ⟨es₂, second⟩, front⟩ := marked mark inside
  exact ⟨m₀, took₁, true, first, ⟨_, second.nest next opens inner⟩, by simp, front⟩

end Nested

/-- A part goes on to where the statement has come to. -/
theorem Goes.onward {α : Type} {x : Parse α} (goes : Goes source marks source.allowance x)
    (midway : Midway source given marks b s) :
    Ends x s (fun _ => Went source b true) (Faulty source b) := by
  refine (goes.ends midway).mono ?_ fun _ _ => id
  rintro a s' ⟨took, went⟩
  exact midway.went.on went

theorem goes_eatAll (sym : Sym) :
    Goes source marks rounds (eatAll source sym source.allowance) := by
  intro given b s midway _
  have ready := midway.readyHere
  refine (ends_eatAll sym source.allowance ready (ready.budget_lt midway.text)).mono ?_
    fun _ _ => False.elim
  rintro _ s' ⟨⟨took, stepped⟩, -⟩
  exact ⟨took, stepped.went⟩

section

variable {expression : Parse Typed} {deep : Bool}
variable (reads : Begins source deep source.allowance expression)

section

variable (hard : deep = true → Deep source expression)

include reads hard

theorem ends_block (stop : Stop) (nested : Nested source given marks b s) :
    Ends (block source expression stop) s (fun _ => Nested source given marks b)
      fun _ _ => False := by
  have entered : Went source s false { s with scopes := [] :: s.scopes } := .turn rfl rfl rfl
  have inner := nested.on entered
  have ready := inner.midway.readyHere
  obtain ⟨items, s', done, listed, -⟩ := statements_listed nested.text reads hard stop
    source.allowance ready [] (ready.budget_lt nested.text)
  apply ends_scoped
  rw [Ends, done]
  exact (inner.listed listed).on (.turn rfl rfl rfl)

/-- Behind an opening brace. -/
theorem ends_brace (nested : Nested source given [place] b s) :
    Ends (brace source expression place) s (fun _ => Went source b true) (Faulty source b) := by
  refine ends_bind ((ends_eaten source .rbrace s).mono (fun taken m ended => ?_)
    fun _ _ => False.elim)
  cases taken with
  | true =>
      obtain ⟨position, ahead, next, rfl⟩ := ended
      exact ends_pure (nested.midway.went.on (Stepped.taking next).went)
  | false =>
      obtain ⟨rfl, -⟩ := ended
      have looked := nested.on s.stepped_look.went
      refine ends_bind ((ends_vectorAhead _).mono (fun vector m stepped => ?_)
        fun _ _ => False.elim)
      have searched := looked.on stepped.went
      cases vector with
      | true =>
          have list : Goes source [place] source.allowance (do
              let items ← scalarList source expression .rbrace
              return (⟨.apply .vector items, .vector⟩ : Typed)) :=
            (goes_scalarList source reads _).bind fun _ => goes_pure _
          exact list.onward searched.midway
      | false =>
          refine ends_bind ((ends_block reads hard .brace searched).mono (fun items m' left => ?_)
            fun _ _ => False.elim)
          have close : Goes source [place] source.allowance (do
              if ← eat source .rbrace then return sequence items
              else fail source place .unclosedBrace) :=
            (goes_eat _).bind fun _ => goes_ite (goes_pure _)
              (goes_fail List.mem_cons_self rfl)
          exact close.onward left.midway

/-- Behind the word `repeat`. -/
theorem ends_repeatLoop (nested : Nested source given [place] b s) :
    Ends (repeatLoop source expression place) s (fun _ => Went source b true)
      (Faulty source b) := by
  have entered : Went source s false { s with loopDepth := s.loopDepth + 1 } := .turn rfl rfl rfl
  have body : Ends (inLoop (block source expression .until)) s
      (fun _ => Nested source given [place] b) fun _ _ => False :=
    ends_looped ((ends_block reads hard .until (nested.on entered)).mono
      (fun _ _ left => left.on (.turn rfl rfl rfl)) fun _ _ => id)
  refine ends_bind (body.mono (fun items m left => ?_) fun _ _ => False.elim)
  have close : Goes source [place] source.allowance (do
      if ← eatWord source "until" then
        expect source .lparen "after 'until'"
        let stop ← scalarExpression source expression "loop condition"
        expect source .rparen "after loop condition"
        return scalarNode (.repeatLoop (sequence items).tree stop)
      else fail source place .missingUntil) :=
    (goes_eatWord _).bind fun _ => goes_ite
      ((goes_expect _ _).bind fun _ => (goes_scalarExpression source reads _).bind fun _ =>
        (goes_expect _ _).bind fun _ => goes_pure _)
      (goes_fail List.mem_cons_self rfl)
  exact close.onward left.midway

end

/-! ### Control -/

include reads

theorem goes_otherwise : Goes source marks rounds (otherwise? source expression) := by
  refine (goes_eatWord _).bind fun _ => goes_ite (reads.within.goes.bind fun _ => goes_pure _) <|
    (goes_check _).bind fun _ => goes_ite ?_ (goes_pure _)
  exact goes_peekSecond.bind fun _ => goes_ite
    (goes_advance.bind fun _ => goes_advance.bind fun _ =>
      reads.within.goes.bind fun _ => goes_pure _) (goes_pure _)

theorem goes_ifExpression (inside : place ∈ marks) :
    Goes source marks rounds (ifExpression source expression place) := by
  refine (goes_expect _ _).bind fun _ => goes_position fun here =>
    reads.within.goes.bind fun condition =>
      ((refuses_requireScalar source condition _).goes List.mem_cons_self).bind fun test =>
        (goes_eat _).bind fun _ => goes_ite ?_ ?_
  · exact reads.within.goes.bind fun yes => (goes_expect _ _).bind fun _ =>
      reads.within.goes.bind fun no => (goes_expect _ _).bind fun _ =>
        (refuses_conditional source test yes (some no)).goes (List.mem_cons_of_mem _ inside)
  · exact (goes_expect _ _).bind fun _ => reads.within.goes.bind fun yes =>
      (goes_otherwise reads).bind fun no =>
        (refuses_conditional source test yes no).goes (List.mem_cons_of_mem _ inside)

theorem goes_switchCases (fuel : Nat) (c : Cases) :
    Goes source marks fuel (switchCases source expression fuel c) := by
  induction fuel generalizing c marks with
  | zero => exact goes_stalled
  | succ fuel ih =>
      refine (goes_eatAll _).bind fun _ => goes_position fun here =>
        goes_taking (ends_eatenWord source "case") ?_ <|
          goes_taking (ends_eatenWord source "default") ?_ <|
            (goes_eat _).bind fun _ => goes_ite (goes_pure _) <|
              goes_peek.bind fun _ => goes_fail List.mem_cons_self rfl
      · exact reads.within.goes.bind fun condition =>
          ((refuses_requireScalar source condition _).goes List.mem_cons_self).bind fun test =>
            (goes_expect _ _).bind fun _ => reads.within.goes.bind fun body =>
              ((refuses_addCase source c _ body).goes List.mem_cons_self).bind fun c => ih c
      · rw [if_pos rfl]
        exact goes_ite (goes_fail List.mem_cons_self rfl) <|
          (goes_expect _ _).bind fun _ => reads.within.goes.bind fun body =>
            ((refuses_addCase source c _ body).goes List.mem_cons_self).bind fun c => ih c

theorem goes_switch : Goes source marks rounds (switch source expression) :=
  (goes_expect _ _).bind fun _ => (goes_switchCases reads source.allowance _).within

theorem goes_loopBody : Goes source marks rounds (loopBody expression) :=
  reads.within.goes.inLoop.bind fun _ => goes_pure _

theorem goes_forLoop : Goes source marks rounds (forLoop source expression) := by
  have start : Goes source marks rounds (loopStart source expression) :=
    (goes_check _).bind fun _ => goes_ite (goes_pure _) <| (goes_checkWord _).bind fun _ =>
      goes_ite ((declaration_begins source reads false).within.goes.bind fun _ => goes_pure _)
        (reads.within.goes.bind fun _ => goes_pure _)
  have test : Goes source marks rounds (loopTest source expression) :=
    (goes_check _).bind fun _ => goes_ite (goes_pure _) <|
      (goes_scalarExpression source reads _).bind fun _ => goes_pure _
  have step : Goes source marks rounds (loopStep source expression) :=
    (goes_check _).bind fun _ => goes_ite (goes_pure _) <|
      reads.within.goes.bind fun _ => goes_pure _
  exact (goes_expect _ _).bind fun _ => (start.bind fun first =>
    (goes_expect _ _).bind fun _ => test.bind fun _ => (goes_expect _ _).bind fun _ =>
      step.bind fun _ => (goes_expect _ _).bind fun _ => (goes_loopBody reads).bind fun _ =>
        goes_pure _).inScope

theorem goes_whileLoop : Goes source marks rounds (whileLoop source expression) :=
  (goes_expect _ _).bind fun _ => (goes_scalarExpression source reads _).bind fun _ =>
    (goes_expect _ _).bind fun _ => (goes_loopBody reads).bind fun _ => goes_pure _

omit reads in
theorem goes_requireLoop (keyword : String) (inside : place ∈ marks) :
    Goes source marks rounds (requireLoop source place keyword) :=
  goes_get fun _ => goes_ite (goes_fail inside rfl) (goes_pure _)

theorem goes_breakExpression (inside : place ∈ marks) :
    Goes source marks rounds (breakExpression source expression place) :=
  (goes_requireLoop _ inside).bind fun _ => (goes_eat _).bind fun _ => goes_ite
    ((goes_scalarExpression source reads _).bind fun _ => (goes_expect _ _).bind fun _ =>
      goes_pure _) (goes_pure _)

theorem goes_returnExpression : Goes source marks rounds (returnExpression source expression) :=
  (goes_eat _).bind fun _ => goes_ite
    ((goes_eat _).bind fun _ => goes_ite (goes_pure _) <|
      (goes_commaList source reads.goes _ _ _ _).within.bind fun _ => goes_pure _) (goes_pure _)

/-! ### Names -/

theorem goes_bound (close : Sym) : Goes source marks rounds (bound? source expression close) :=
  (goes_check _).bind fun _ => goes_ite (goes_pure _) <|
    (goes_scalarExpression source reads _).bind fun _ => goes_pure _

theorem goes_access (binding : Binding) (inside : place ∈ marks) :
    Goes source marks rounds (access source expression binding place) := by
  refine (goes_check _).bind fun _ => goes_ite (goes_pure _) <|
    goes_ite (goes_fail inside rfl) <| goes_advance.bind fun _ =>
      (goes_eat _).bind fun _ => goes_ite (goes_pure _) <| (goes_bound reads _).bind fun first =>
        (goes_eat _).bind fun _ => goes_ite ?_ ?_
  · exact (goes_bound reads _).bind fun _ => (goes_expect _ _).bind fun _ => goes_pure _
  · refine (goes_expect _ _).bind fun _ => ?_
    cases first with
    | some index => exact goes_pure _
    | none => exact goes_fail inside rfl

theorem goes_arguments : Goes source marks rounds (arguments? source expression) :=
  (goes_eat _).bind fun _ => goes_ite
    ((goes_eat _).bind fun _ => goes_ite (goes_pure _) <|
      (goes_commaList source reads.goes _ _ _ _).within.bind fun _ => goes_pure _) (goes_pure _)

theorem goes_identifier (name : String) (inside : place ∈ marks) :
    Goes source marks rounds (identifier source expression name place) := by
  refine goes_get fun _ => ?_
  split
  · exact goes_access reads _ inside
  · split
    · next symbol _ =>
        cases symbol with
        | function f =>
            exact (goes_arguments reads).bind fun _ => (refuses_call source name f _).goes inside
        | _ => exact goes_access reads _ inside
    · refine goes_ite ((goes_arguments reads).bind fun found => ?_)
        (goes_fail inside rfl)
      cases found with
      | some args => exact (refuses_builtin source name args).goes inside
      | none => exact goes_fail inside rfl

/-! ### Operands -/

section

variable (hard : deep = true → Deep source expression)

include hard

/-- Behind a word that begins a statement from `b` on. -/
theorem ends_word {name : String} {position : Nat} {ahead : List (Nat × Token)} {m : State}
    (text : Given source given) (ready : Ready source given b) (went : Went source b false m)
    (next : m.ahead = (position, .word name) :: ahead) :
    Ends (word source expression name (m.front source)) (m.behind (.word name) ahead)
      (fun _ => Went source b true) (Faulty source b) := by
  have taken : Went source m true (m.behind (.word name) ahead) :=
    (Stepped.of_act (.take next)).went
  have midway : Midway source given [m.front source] b (m.behind (.word name) ahead) :=
    ⟨text, ready, went.trans taken, by simpa using ⟨m, false, true, went, taken, rfl, rfl⟩⟩
  have inside : m.front source ∈ [m.front source] := List.mem_cons_self
  have misplaced : Cause.misplacedDeclaration.isProper = true := rfl
  unfold word
  split
  · exact (goes_pure _).onward midway
  · exact (goes_pure _).onward midway
  · exact (goes_pure _).onward midway
  · exact (goes_ifExpression reads inside).onward midway
  · exact (goes_switch reads).onward midway
  · exact (goes_forLoop reads).onward midway
  · exact (goes_whileLoop reads).onward midway
  · refine ends_repeatLoop reads hard ⟨text, ready, m, false, position, _, ahead, went, next, rfl,
      .refl _, fun mark marked => ?_⟩
    rw [List.mem_singleton.mp marked]
    exact ⟨m, false, false, went, .refl m, rfl⟩
  · exact (goes_breakExpression reads inside).onward midway
  · exact ((goes_requireLoop _ inside).bind fun _ => goes_pure _).onward midway
  · exact (goes_returnExpression reads).onward midway
  · exact (goes_fail inside misplaced).onward midway
  · exact (goes_fail inside misplaced).onward midway
  · exact (goes_identifier reads _ inside).onward midway

theorem primary_begins : Begins source false source.allowance (primary source expression) := by
  intro given s text ready within
  have looked := went_look source s
  apply ends_bind
  rw [Ends, position_eq]
  apply ends_bind
  rw [Ends, check_eq, State.look_look]
  dsimp only
  split
  · next semicolon =>
      exact ends_throw (.declined rfl (.refl _) (.inr (.inl (by simpa using semicolon))))
  · apply ends_bind
    cases ahead : (s.look source 1).ahead with
    | nil =>
        rw [Ends, advance_none source (s.look_look.symm ▸ ahead), State.look_look]
        exact ends_throw (.declined rfl (.turn rfl rfl rfl) (.inl ahead))
    | cons next rest =>
        obtain ⟨position, t⟩ := next
        have taken : Went source (s.look source 1) true ((s.look source 1).behind t rest) :=
          (Stepped.of_act (.take ahead)).went
        have midway : Midway source given [(s.look source 1).front source] s
            ((s.look source 1).behind t rest) :=
          ⟨text, ready, looked.trans taken, by
            simpa using ⟨_, false, true, looked, taken, rfl, rfl⟩⟩
        rw [Ends, advance_some source (s.look_look.symm ▸ ahead), State.look_look]
        have inside : (s.look source 1).front source ∈ [(s.look source 1).front source] :=
          List.mem_cons_self
        have within := midway.readyHere.budget_lt text
        have unexpected : (Cause.unexpected (some t)).isProper = true := rfl
        cases t with
        | number x => exact (goes_pure _).begun midway within
        | text value => exact (goes_pure _).begun midway within
        | word name =>
            exact (ends_word reads hard text ready looked ahead).mono (fun _ _ => id)
              fun _ _ => .inl
        | sym sym =>
            cases sym with
            | lparen =>
                have close : Goes source [(s.look source 1).front source] source.allowance (do
                    let inner ← expression
                    expect source .rparen "to close '('"
                    return inner) :=
                  reads.goes.bind fun _ => (goes_expect _ _).bind fun _ => goes_pure _
                exact close.begun midway within
            | lbrace =>
                have nested : Nested source given [(s.look source 1).front source] s
                    ((s.look source 1).behind (.sym .lbrace) rest) := by
                  refine ⟨text, ready, _, false, position, _, rest, looked, ahead, rfl, .refl _,
                    fun mark marked => ?_⟩
                  rw [List.mem_singleton.mp marked]
                  exact ⟨_, false, false, looked, .refl _, rfl⟩
                exact (ends_brace reads hard nested).mono (fun _ _ => id) fun _ _ => .inl
            | _ => exact (goes_fail inside unexpected).begun midway within

end

end

/-! ### Levels of nesting -/

section

variable {inner : Parse Typed} {deep : Bool} (inners : Begins source deep source.allowance inner)

include inners

theorem prefixed_begins (hard : deep = true → Deep source (Parse.expression source inner)) :
    Begins source false source.allowance (prefixed source inner) := by
  have primaries := primary_begins (expression_begins source inners) hard
  intro given s text ready within
  apply ends_bind
  rw [Ends, position_eq]
  apply ends_bind
  rw [Ends, peek_eq, State.look_look]
  dsimp only
  -- Behind a sign stands what it applies to.
  have signed : ∀ {t : Token} {f : Typed → Parse Typed},
      (∀ node, Goes source [(s.look source 1).front source] source.allowance (f node)) →
      (s.look source 1).ahead.head?.map Prod.snd = some t →
      Ends (advance source >>= fun _ => chain source inner unaryPrecedence >>= f)
        (s.look source 1) (fun _ => Went source s true) (Fails source false s) := by
    intro t f goes found
    obtain ⟨ahead, next⟩ : ∃ ahead, (s.look source 1).ahead =
        ((s.look source 1).front source, t) :: ahead := State.exists_ahead found
    exact Goes.advanced ((chain_begins source inners _).goes.bind goes) text ready next
  have negated : ∀ node, Goes source [(s.look source 1).front source] source.allowance (do
      let tree ← requireScalar source node ((s.look source 1).front source) "operand of 'not'"
      return scalarNode (.apply .not [tree])) := fun node =>
    ((refuses_requireScalar source node _).goes List.mem_cons_self).bind fun _ => goes_pure _
  split
  · next found =>
      exact signed (fun _ => goes_ite (goes_fail List.mem_cons_self rfl) (goes_pure _)) found
  · next found =>
      exact signed (fun _ => goes_ite (goes_fail List.mem_cons_self rfl) (goes_pure _)) found
  · next found => exact signed negated found
  · next found => exact signed negated found
  · exact primaries.looked text ready within

end

/-- Where no nesting is left, every expression is too deep. -/
theorem deep_operand (allowed : 0 < source.allowance) :
    Deep source (Parse.expression source (operand source 0)) := by
  intro s position t ahead next
  obtain ⟨rounds, allowance⟩ := Nat.exists_eq_succ_of_ne_zero (Nat.ne_of_gt allowed)
  have here : Parse.position source s = .ok position s := by
    rw [position_eq, State.look_poised fun none => by simp [next] at none, State.front_ahead next]
  have tooDeep : operand source 0 s = .error
      (Diagnostic.locate source.text position (.nestedTooDeep source.limits.nesting)) s :=
    bind_completed here
  have chain : chain source (operand source 0) 1 s = .error
      (Diagnostic.locate source.text position (.nestedTooDeep source.limits.nesting)) s := by
    rw [chain, allowance, binary]
    exact bind_stopped tooDeep
  have ternary : ∀ again, ternary source (operand source 0) again s = .error
      (Diagnostic.locate source.text position (.nestedTooDeep source.limits.nesting)) s :=
    fun again => (bind_completed here).trans (bind_stopped chain)
  rw [Parse.expression, allowance, expressions, bind_completed here]
  exact bind_stopped (ternary _)

/-- An operand takes a token, at any level of nesting but the last. -/
theorem operand_begins (allowed : 0 < source.allowance) (levels : Nat) :
    Begins source (levels == 0) source.allowance (operand source levels) := by
  induction levels with
  | zero =>
      intro given s text ready within
      apply ends_bind
      rw [Ends, position_eq]
      exact ends_throw (.declined rfl (.refl _) (.inr (.inr ⟨rfl, rfl⟩)))
  | succ levels ih =>
      refine prefixed_begins ih fun last => ?_
      rw [beq_iff_eq.mp last]
      exact deep_operand allowed

/-- A text is read to its end, whatever it holds, and nothing stops the parse. -/
theorem program_listed {s : State} (text : Given source given) (ready : Ready source given s) :
    ∃ items s', program source s = .ok items s' ∧ Listed source s s' ∧ s'.left = [] := by
  have allowed : 0 < source.allowance := Nat.zero_lt_of_lt text.allowed
  obtain ⟨items, s', done, listed, poised, stopped⟩ := statements_listed text
    (expression_begins source (operand_begins allowed source.limits.nesting))
    (fun last => by
      rw [beq_iff_eq.mp last]
      exact deep_operand allowed) .input source.allowance ready [] (ready.budget_lt text)
  refine ⟨items, s', done, listed, ?_⟩
  -- The list of a whole text stops in front of nothing but its end.
  have none : s'.ahead = [] := by
    rcases stopped with none | ⟨t, -, stops⟩
    · exact none
    · cases stops
  simp [State.left, none, poised none]

end MathScript.Parse
