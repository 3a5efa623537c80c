import MathScript.Parse.Statement
import MathScript.Proofs.Built
import MathScript.Proofs.Flow

/-!
What a text declares, and what of it is still ahead. A declaration is a name behind the word
`var`; behind `const var` the name may not be written. Looking at tokens and taking them leaves
less ahead, so what was granted to all declarations ahead is granted to those that are left; the
one thing to be known of what was taken is whether the last token was `const`.
-/

namespace MathScript.Parse

/-! ### Declarations of a text -/

/-- The word at the head, if there is one. -/
def headWord? : List Token → Option String
  | .word name :: _ => some name
  | _ => none

/-- The names that are declared, each with whether it may be written. `constant` tells whether
`const` stands in front of the tokens. -/
def declarations (constant : Bool) : List Token → List (String × Bool)
  | [] => []
  | t :: ts =>
      (if t = .word "var" then (headWord? ts).toList.map fun name => (name, !constant) else []) ++
        declarations (t == .word "const") ts

def tokensOf (lexemes : List Lexeme) : List Token := lexemes.filterMap fun l => l.content.toOption

/-- The tokens that are not taken yet. -/
def State.tokens (s : State) : List Token := s.ahead.map Prod.snd ++ tokensOf s.rest

theorem declarations_tail (constant : Bool) (t : Token) (ts : List Token) :
    declarations (t == .word "const") ts ⊆ declarations constant (t :: ts) :=
  List.subset_append_right _ _

/-- Only in front of `var` it matters what stands before. -/
theorem declarations_front {constant : Bool} {ts : List Token}
    (other : ts.head? ≠ some (.word "var")) :
    declarations constant ts = declarations false ts := by
  cases ts with
  | nil => rfl
  | cons t ts =>
      have different : t ≠ .word "var" := fun same => other (by rw [same]; rfl)
      simp only [declarations, different, if_false]

/-! ### What is ahead is granted -/

/-- Whatever is still to be declared is granted, if `constant` tells what stands in front. -/
def Promised (offers : Grant → Prop) (constant : Bool) (s : State) : Prop :=
  ∀ d ∈ declarations constant s.tokens, offers (.declare d.1 d.2)

/-- Whatever is still to be declared is granted, with no `const` in front. -/
abbrev Calm (offers : Grant → Prop) (s : State) : Prop := Promised offers false s

/-- Whatever is still to be declared is granted. Behind a closing brace stands no `const`. -/
def Ahead (offers : Grant → Prop) (s : State) : Prop :=
  ∃ constant, Promised offers constant s ∧ (s.afterBrace = true → constant = false)

variable {offers : Grant → Prop} {s s' s'' : State} {constant : Bool}

theorem Promised.ahead (promised : Promised offers constant s)
    (plain : s.afterBrace = true → constant = false) : Ahead offers s :=
  ⟨constant, promised, plain⟩

theorem promised_nil (empty : s.tokens = []) : Promised offers constant s := by
  rw [Promised, empty]
  simp [declarations]

/-- In front of anything but `var` there is as good as no `const`. -/
theorem Ahead.calm (ahead : Ahead offers s) (other : s.tokens.head? ≠ some (.word "var")) :
    Calm offers s := by
  obtain ⟨constant, promised, -⟩ := ahead
  rw [Promised, declarations_front other] at promised
  exact promised

/-- The name at the head may be declared. -/
def Named (offers : Grant → Prop) (constant : Bool) (s : State) : Prop :=
  ∀ name ts, s.tokens = .word name :: ts → offers (.declare name !constant)

/-- The name behind the first token may be declared. -/
def Names (offers : Grant → Prop) (constant : Bool) (s : State) : Prop :=
  ∀ t name ts, s.tokens = t :: .word name :: ts → offers (.declare name !constant)

theorem Promised.names (promised : Promised offers constant s)
    (var : s.tokens.head? = some (.word "var")) : Names offers constant s := by
  intro t name rest split
  obtain rfl : t = .word "var" := by simpa [split] using var
  apply promised (name, !constant)
  rw [split]
  simp [declarations, headWord?]

/-! ### Looking -/

/-- The tokens are there as before, or none is left. -/
structure Looked (s s' : State) : Prop where
  tokens : s'.tokens = s.tokens ∨ s'.tokens = []
  afterBrace : s'.afterBrace = s.afterBrace

namespace Looked

theorem refl (s : State) : Looked s s := ⟨.inl rfl, rfl⟩

theorem trans (first : Looked s s') (second : Looked s' s'') : Looked s s'' := by
  refine ⟨?_, second.afterBrace.trans first.afterBrace⟩
  rcases second.tokens with same | none
  · rw [same]
    exact first.tokens
  · exact .inr none

theorem promised (looked : Looked s s') (promised : Promised offers constant s) :
    Promised offers constant s' := by
  rcases looked.tokens with same | none
  · rwa [Promised, same]
  · exact promised_nil none

theorem ahead (looked : Looked s s') (ahead : Ahead offers s) : Ahead offers s' := by
  obtain ⟨constant, promised, plain⟩ := ahead
  exact ⟨constant, looked.promised promised, looked.afterBrace ▸ plain⟩

theorem named (looked : Looked s s') (named : Named offers constant s) :
    Named offers constant s' := by
  intro name ts split
  rcases looked.tokens with same | none
  · exact named name ts (same ▸ split)
  · rw [none] at split
    cases split

end Looked

/-- One token is taken, or none is left. -/
structure Took (s : State) (t : Token) (s' : State) : Prop where
  tokens : s.tokens = t :: s'.tokens ∨ s'.tokens = []
  afterBrace : s'.afterBrace = true → t = .sym .rbrace

namespace Took

variable {t : Token}

theorem promised (took : Took s t s') (promised : Promised offers constant s) :
    Promised offers (t == .word "const") s' := by
  rcases took.tokens with taken | none
  · intro d member
    apply promised
    rw [taken]
    exact declarations_tail constant t s'.tokens member
  · exact promised_nil none

theorem named (took : Took s t s') (names : Names offers constant s) :
    Named offers constant s' := by
  intro name ts split
  rcases took.tokens with taken | none
  · exact names t name ts (by rw [taken, split])
  · rw [none] at split
    cases split

theorem of_looked {s₁ : State} (looked : Looked s s₁) (took : Took s₁ t s') : Took s t s' where
  afterBrace := took.afterBrace
  tokens := by
    rcases looked.tokens with same | none
    · exact same ▸ took.tokens
    · exact took.tokens.elim (fun taken => by simp [none] at taken) .inr

theorem ahead (took : Took s t s') (ahead : Ahead offers s) : Ahead offers s' := by
  obtain ⟨constant, promised, -⟩ := ahead
  refine ⟨_, took.promised promised, fun brace => ?_⟩
  rw [took.afterBrace brace]
  rfl

/-- Behind anything but `const`. -/
theorem calm (took : Took s t s') (ahead : Ahead offers s) (other : t ≠ .word "const") :
    Calm offers s' := by
  obtain ⟨constant, promised, -⟩ := ahead
  have kept := took.promised promised
  rwa [beq_eq_false_iff_ne.mpr other] at kept

end Took

namespace State

theorem record_ahead (s : State) (limit : Nat) (d : Diagnostic) :
    let s' := s.record limit d
    (if s'.full limit then s'.tokens = [] ∧ s'.ahead = [] else s'.ahead = s.ahead) ∧
      s'.afterBrace = s.afterBrace := by
  unfold record
  dsimp only
  split <;> split <;> simp_all [full, tokens, tokensOf]

theorem looked_record (s : State) (limit : Nat) (d : Diagnostic) : Looked s (s.record limit d) := by
  have kept : Looked s
      (if s.full limit then s else { s with diagnostics := s.diagnostics.push d }) := by
    split <;> exact ⟨.inl rfl, rfl⟩
  have ended : ∀ s : State, Looked s
      (if s.full limit then { s with ahead := [], rest := [] } else s) := by
    intro s
    split
    · exact ⟨.inr rfl, rfl⟩
    · exact ⟨.inl rfl, rfl⟩
  exact kept.trans (ended _)

variable (source : Source)

/-- What is pulled comes from the lexemes, and nothing is ahead only if there is nothing left. -/
theorem pull_tokens (s : State) (lexemes : List Lexeme) :
    let s' := s.pull source lexemes
    (s'.tokens = s.ahead.map Prod.snd ++ tokensOf lexemes ∨ s'.tokens = []) ∧
      s'.afterBrace = s.afterBrace ∧ (s'.ahead = [] → s'.tokens = []) := by
  induction lexemes generalizing s with
  | nil => simp +contextual [pull, tokens, tokensOf]
  | cons l rest ih =>
      rw [pull]
      cases content : l.content with
      | ok t => simp [tokens, tokensOf, content, Except.toOption]
      | error cause =>
          obtain ⟨kept, brace⟩ := s.record_ahead source.limits.errors
            (Diagnostic.locate source.text l.position cause)
          dsimp only
          split
          · next full =>
              rw [if_pos full] at kept
              exact ⟨.inr kept.1, brace, fun _ => kept.1⟩
          · next open' =>
              rw [if_neg open'] at kept
              obtain ⟨from_, still, none⟩ := ih (s.record source.limits.errors
                (Diagnostic.locate source.text l.position cause))
              rw [kept] at from_
              refine ⟨?_, still.trans brace, none⟩
              simpa [tokensOf, content, Except.toOption] using from_

theorem looked_pull (s : State) : Looked s (s.pull source s.rest) := by
  obtain ⟨from_, brace, -⟩ := s.pull_tokens source s.rest
  exact ⟨from_, brace⟩

theorem looked_look (s : State) (count : Nat) : Looked s (s.look source count) := by
  induction count with
  | zero => exact Looked.refl s
  | succ count ih =>
      rw [look]
      split
      · exact ih.trans (looked_pull source _)
      · exact ih

theorem look_ahead (s : State) (none : (s.look source 1).ahead = []) :
    (s.look source 1).tokens = [] := by
  have look_eq : s.look source 1 =
      if s.ahead.length ≤ 0 then s.pull source s.rest else s := rfl
  rw [look_eq] at none ⊢
  split
  · next short =>
      rw [if_pos short] at none
      exact (s.pull_tokens source s.rest).2.2 none
  · next long =>
      rw [if_neg long] at none
      simp [none] at long

end State

variable (source : Source)

theorem ends_peek (s : State) :
    Ends (peek source) s (fun found s' => Looked s s' ∧ s'.tokens.head? = found)
      fun _ _ => False := by
  refine ⟨s.looked_look source 1, ?_⟩
  cases ahead : (s.look source 1).ahead with
  | nil =>
      rw [s.look_ahead source ahead]
      rfl
  | cons t rest => simp [State.tokens, ahead]

theorem ends_advance (s : State) :
    Ends (advance source) s (fun found s' => match found with
      | some t => s.tokens = t :: s'.tokens ∧ Took s t s'
      | none => ∀ t, Took s t s') fun _ _ => False := by
  have looked := s.looked_look source 1
  unfold Ends advance
  cases ahead : (s.look source 1).ahead with
  | nil =>
      have none : tokensOf (s.look source 1).rest = [] := by
        simpa [State.tokens, ahead] using s.look_ahead source ahead
      simp only [ahead]
      exact fun t => ⟨.inr none, fun brace => by cases brace⟩
  | cons t rest =>
      have there : s.tokens = (s.look source 1).tokens := by
        rcases looked.tokens with same | none
        · exact same.symm
        · simp [State.tokens, ahead] at none
      have taken : s.tokens = t.2 :: (rest.map Prod.snd ++ tokensOf (s.look source 1).rest) :=
        there.trans (by simp [State.tokens, ahead])
      simp only [ahead]
      exact ⟨taken, .inl taken, by simp⟩

/-! ### Parts that only look -/

/-- A part that takes no token. -/
def Idle {α : Type} (x : Parse α) : Prop :=
  ∀ s, Ends x s (fun _ => Looked s) fun _ => Looked s

theorem idle_pure {α : Type} (a : α) : Idle (pure a) := fun s => ends_pure (Looked.refl s)

theorem idle_modifyGet {α : Type} {f : State → α × State} (looked : ∀ s, Looked s (f s).2) :
    Idle (modifyGet f) :=
  looked

theorem Idle.bind {α β : Type} {x : Parse α} {f : α → Parse β} (first : Idle x)
    (rest : ∀ a, Idle (f a)) : Idle (x >>= f) := by
  intro s
  refine ends_bind ((first s).mono (fun a s₁ looked => ?_) fun _ _ => id)
  exact (rest a s₁).mono (fun _ _ further => looked.trans further)
    fun _ _ further => looked.trans further

theorem idle_ite {α : Type} {c : Prop} [Decidable c] {x y : Parse α} (yes : Idle x)
    (no : Idle y) : Idle (if c then x else y) := by
  split
  · exact yes
  · exact no

theorem Idle.keeps {α : Type} {x : Parse α} (idle : Idle x) (offers : Grant → Prop)
    (constant : Bool) : Keeps (Promised offers constant) x :=
  fun s promised => (idle s).mono (fun _ _ looked => looked.promised promised)
    fun _ _ looked => looked.promised promised

theorem idle_peek : Idle (peek source) :=
  fun s => (ends_peek source s).mono (fun _ _ found => found.1) fun _ _ => False.elim

theorem idle_position : Idle (position source) := by
  have next : Idle (next? source) := fun s => s.looked_look source 1
  exact next.bind fun found => by cases found <;> exact idle_pure _

theorem idle_check (sym : Sym) : Idle (check source sym) :=
  (idle_peek source).bind fun _ => idle_pure _

theorem idle_checkWord (word : String) : Idle (checkWord source word) :=
  (idle_peek source).bind fun _ => idle_pure _

theorem searchRest_tokens (s : State) (seen : List (Nat × Token)) (depth : Nat)
    (lexemes : List Lexeme) :
    let s' := (searchRest source s seen depth lexemes).2
    (s'.tokens = (s.ahead ++ seen.reverse).map Prod.snd ++ tokensOf lexemes ∨ s'.tokens = []) ∧
      s'.afterBrace = s.afterBrace := by
  induction lexemes generalizing s seen depth with
  | nil => simp [searchRest, State.tokens, tokensOf]
  | cons l rest ih =>
      rw [searchRest]
      cases content : l.content with
      | ok t =>
          dsimp only
          cases verdict? depth t with
          | some b => simp [State.tokens, tokensOf, content, Except.toOption]
          | none =>
              have further := ih s ((l.position, t) :: seen) (depthAfter depth t)
              simpa [tokensOf, content, Except.toOption] using further
      | error cause =>
          obtain ⟨kept, brace⟩ := s.record_ahead source.limits.errors
            (Diagnostic.locate source.text l.position cause)
          dsimp only
          split
          · next full =>
              rw [if_pos full] at kept
              exact ⟨.inr kept.1, brace⟩
          · next open' =>
              rw [if_neg open'] at kept
              have further := ih (s.record source.limits.errors
                (Diagnostic.locate source.text l.position cause)) seen depth
              rw [kept, brace] at further
              simpa [tokensOf, content, Except.toOption] using further

theorem looked_searchRest (s : State) (depth : Nat) :
    Looked s (searchRest source s [] depth s.rest).2 := by
  obtain ⟨from_, brace⟩ := searchRest_tokens source s [] depth s.rest
  exact ⟨by simpa [State.tokens] using from_, brace⟩

theorem idle_vectorAhead : Idle (vectorAhead source) := by
  apply (idle_checkWord source "var").bind
  intro _
  apply idle_ite (idle_pure _)
  apply (idle_checkWord source "const").bind
  intro _
  apply idle_ite (idle_pure _)
  apply idle_modifyGet
  intro s
  cases searchAhead 0 s.ahead with
  | error b => exact Looked.refl s
  | ok depth => exact looked_searchRest source s depth

/-! ### Parts that take a token -/

/-- What is taken is the head. -/
theorem ends_taking {t : Token} (head : s.tokens.head? = some t) :
    Ends (advance source) s (fun _ => Took s t) fun _ _ => False := by
  refine (ends_advance source s).mono (fun found s' advanced => ?_) fun _ _ => id
  cases found with
  | none => exact advanced t
  | some u =>
      obtain ⟨taken, took⟩ := advanced
      obtain rfl : u = t := by simpa [taken] using head
      exact took

/-- What a check tells of the head. -/
theorem ends_checking (t : Token) (s : State) :
    Ends (do return (← peek source) == some t : Parse Bool) s
      (fun b s' => Looked s s' ∧ (b = true → s'.tokens.head? = some t)) fun _ _ => False := by
  refine ends_bind ((ends_peek source s).mono (fun found s' peeked => ?_) fun _ _ => id)
  exact ends_pure ⟨peeked.1, fun there => peeked.2.trans (beq_iff_eq.mp there)⟩

theorem ends_checkWord (word : String) (s : State) :
    Ends (checkWord source word) s
      (fun b s' => Looked s s' ∧ (b = true → s'.tokens.head? = some (.word word)))
      fun _ _ => False :=
  ends_checking source (.word word) s

/-- If the token is there, it is taken. -/
theorem ends_take (t : Token) (s : State) :
    Ends (do
        if (← peek source) == some t then
          let _ ← advance source
          return true
        else return false : Parse Bool) s
      (fun taken s' => if taken = true then Took s t s' else Looked s s') fun _ _ => False := by
  refine ends_bind ((ends_peek source s).mono (fun found s₁ peeked => ?_) fun _ _ => id)
  obtain ⟨looked, head⟩ := peeked
  split
  · next there =>
      have ends := ends_taking source (head.trans (beq_iff_eq.mp there))
      refine ends_bind (ends.mono (fun _ s' took => ?_) fun _ _ => id)
      exact ends_pure (.of_looked looked took)
  · exact ends_pure (by simpa using looked)

theorem ends_eat (sym : Sym) (s : State) :
    Ends (eat source sym) s
      (fun taken s' => if taken = true then Took s (.sym sym) s' else Looked s s')
      fun _ _ => False :=
  ends_take source (.sym sym) s

theorem ends_eatWord (word : String) (s : State) :
    Ends (eatWord source word) s
      (fun taken s' => if taken = true then Took s (.word word) s' else Looked s s')
      fun _ _ => False :=
  ends_take source (.word word) s

variable {source}

/-- A symbol is no `const`. -/
theorem calm_eat {sym : Sym} : Keeps (Calm offers) (eat source sym) := by
  intro s calm
  refine (ends_eat source sym s).mono (fun taken s' ended => ?_) fun _ _ => False.elim
  split at ended
  · exact ended.calm (calm.ahead fun _ => rfl) (by simp)
  · exact ended.promised calm

theorem calm_eatAll {sym : Sym} (fuel : Nat) : Keeps (Calm offers) (eatAll source sym fuel) := by
  induction fuel with
  | zero => exact keeps_throw _
  | succ fuel ih =>
      refine keeps_bind calm_eat fun taken => ?_
      cases taken with
      | false => exact keeps_pure ()
      | true => exact ih

/-- Behind a symbol stands no `const`. -/
theorem ends_expect {sym : Sym} {context : String} (ahead : Ahead offers s) :
    Ends (expect source sym context) s (fun _ => Calm offers) fun _ _ => True := by
  refine ends_bind ((ends_eat source sym s).mono (fun taken s' ended => ?_) fun _ _ => False.elim)
  cases taken with
  | true => exact ends_pure (ended.calm ahead (by simp))
  | false =>
      refine ends_bind (ends_true.mono (fun here _ _ => ?_) fun _ _ => id)
      exact ends_bind (ends_true.mono (fun _ _ _ => ends_throw trivial) fun _ _ => id)

/-- Skipping ends behind a `;`, in front of no `var`, or with no token left. -/
theorem ends_synchronize (fuel depth : Nat) (ahead : Ahead offers s) :
    Ends (synchronize source fuel depth) s (fun _ => Calm offers) fun _ _ => True := by
  induction fuel generalizing depth s with
  | zero => exact ends_throw trivial
  | succ fuel ih =>
      refine ends_bind ((ends_peek source s).mono (fun found s₁ peeked => ?_) fun _ _ => False.elim)
      obtain ⟨looked, head⟩ := peeked
      have ahead₁ := looked.ahead ahead
      cases found with
      | none => exact ends_pure (promised_nil (List.head?_eq_none_iff.mp head))
      | some t =>
          have taken := ends_taking source head
          dsimp only
          split
          · next semicolon =>
              refine ends_bind (taken.mono (fun _ s' took => ends_pure ?_) fun _ _ => False.elim)
              exact took.calm ahead₁ (by simp [semicolon.2])
          · split
            · next stop =>
                refine ends_pure (ahead₁.calm ?_)
                rw [head]
                rcases stop.2 with rfl | rfl <;> simp
            · exact ends_bind (taken.mono (fun _ s' took => ih _ (took.ahead ahead₁))
                fun _ _ => False.elim)

theorem ends_recover (d : Diagnostic) (ahead : Ahead offers s) :
    Ends (recover source d) s (fun _ => Calm offers) fun _ _ => True :=
  ends_bind (ends_modify (ends_synchronize _ _ ((s.looked_record _ d).ahead ahead)))

/-! ### Where statements end -/

theorem ends_atStop (stop : Stop) (s : State) :
    Ends (atStop source stop) s
      (fun b s' => Looked s s' ∧ (b = true → s'.tokens.head? ≠ some (.word "var")))
      fun _ _ => False := by
  refine ends_bind ((ends_peek source s).mono (fun found s' peeked => ?_) fun _ _ => id)
  obtain ⟨looked, head⟩ := peeked
  cases found with
  | none => exact ends_pure ⟨looked, by simp [head]⟩
  | some t => cases stop <;> exact ends_pure ⟨looked, by simp +contextual [head]⟩

/-- Behind a statement that is separated from the next stands no `const`. -/
theorem ends_separated (stop : Stop) (ahead : Ahead offers s) :
    Ends (separated source stop) s (fun b s' => b = true → Calm offers s') fun _ _ => False := by
  change Ends (if s.afterBrace then _ else _) s _ _
  split
  · next brace =>
      obtain ⟨constant, promised, plain⟩ := ahead
      obtain rfl := plain brace
      exact ends_pure fun _ => promised
  · refine ends_bind ((ends_eat source .semicolon s).mono (fun taken s₁ ended => ?_) fun _ _ => id)
    cases taken with
    | true => exact ends_pure fun _ => ended.calm ahead (by simp)
    | false =>
        refine (ends_atStop stop s₁).mono (fun b s' stopped split => ?_) fun _ _ => id
        exact (stopped.1.ahead (ended.ahead ahead)).calm (stopped.2 split)

end MathScript.Parse
