import MathScript.Proofs.Tokens

/-!
Access to tokens. Looking at tokens, taking them, recording diagnostics and failing leave the
scopes, the size of the frame and the open loops as they are, and what is still ahead is granted
if it was.
-/

namespace MathScript.Parse

/-- The same scopes, the same size of the frame and as many open loops. -/
structure Unmoved (s s' : State) : Prop where
  scopes : s'.scopes = s.scopes
  frameSize : s'.frameSize = s.frameSize
  loopDepth : s'.loopDepth = s.loopDepth

theorem Unmoved.trans {s s' s'' : State} (first : Unmoved s s') (second : Unmoved s' s'') :
    Unmoved s s'' :=
  ⟨second.scopes.trans first.scopes, second.frameSize.trans first.frameSize,
    second.loopDepth.trans first.loopDepth⟩

/-- And nothing ahead that was not granted, of the tokens that were there. -/
structure Same (s s' : State) : Prop extends Unmoved s s' where
  ahead : ∀ offers, Ahead offers s → Ahead offers s'
  tokens : s'.tokens <:+ s.tokens

theorem Same.refl (s : State) : Same s s := ⟨⟨rfl, rfl, rfl⟩, fun _ => id, List.suffix_rfl⟩

theorem Same.trans {s s' s'' : State} (first : Same s s') (second : Same s' s'') : Same s s'' :=
  ⟨first.toUnmoved.trans second.toUnmoved, fun offers => second.ahead offers ∘ first.ahead offers,
    second.tokens.trans first.tokens⟩

theorem Looked.suffix {s s' : State} (looked : Looked s s') : s'.tokens <:+ s.tokens := by
  rcases looked.tokens with same | none
  · exact same ▸ List.suffix_rfl
  · exact none ▸ List.nil_suffix

theorem Took.suffix {s s' : State} {t : Token} (took : Took s t s') : s'.tokens <:+ s.tokens := by
  rcases took.tokens with taken | none
  · exact taken ▸ List.suffix_cons t s'.tokens
  · exact none ▸ List.nil_suffix

theorem Unmoved.same {s s' : State} (unmoved : Unmoved s s') (looked : Looked s s') : Same s s' :=
  ⟨unmoved, fun _ => looked.ahead, looked.suffix⟩

/-- A part that leaves scopes, frame and open loops alone, however it ends. -/
def Quiet {α : Type} (x : Parse α) : Prop := ∀ s, Keeps (Same s) x

theorem quiet_of_same {α : Type} {x : Parse α}
    (same : ∀ s, Ends x s (fun _ => Same s) fun _ => Same s) : Quiet x :=
  fun _ s' before => (same s').mono (fun _ _ after => before.trans after)
    fun _ _ after => before.trans after

theorem quiet_modifyGet {α : Type} {f : State → α × State} (same : ∀ s, Same s (f s).2) :
    Quiet (modifyGet f) :=
  quiet_of_same same

/-- Behind a quiet part, with what is told of how it ends. -/
theorem Quiet.ends {α β : Type} {x : Parse β} {f : β → Parse α} {s : State}
    {known : β → State → Prop} {failed : Diagnostic → State → Prop} {ok : α → State → Prop}
    {bad : Diagnostic → State → Prop} (quiet : Quiet x) (ends : Ends x s known failed)
    (rest : ∀ b s', Same s s' → known b s' → Ends (f b) s' ok bad)
    (stopped : ∀ d s', Same s s' → bad d s') : Ends (x >>= f) s ok bad := by
  refine ends_bind (((quiet s s (Same.refl s)).and ends).mono ?_ ?_)
  · rintro b s' ⟨same, told⟩
    exact rest b s' same told
  · rintro d s' ⟨same, -⟩
    exact stopped d s' same

theorem quiet_pure {α : Type} (a : α) : Quiet (pure a) := fun _ => keeps_pure a

theorem Quiet.bind {α β : Type} {x : Parse α} {f : α → Parse β} (first : Quiet x)
    (rest : ∀ a, Quiet (f a)) : Quiet (x >>= f) :=
  fun s => keeps_bind (first s) fun a => rest a s

theorem quiet_ite {α : Type} {c : Prop} [Decidable c] {x y : Parse α} (yes : Quiet x)
    (no : Quiet y) : Quiet (if c then x else y) := by
  split
  · exact yes
  · exact no

namespace State

theorem unmoved_record (s : State) (limit : Nat) (d : Diagnostic) :
    Unmoved s (s.record limit d) := by
  have kept : Unmoved s
      (if s.full limit then s else { s with diagnostics := s.diagnostics.push d }) := by
    split <;> exact ⟨rfl, rfl, rfl⟩
  have ended : ∀ s : State, Unmoved s
      (if s.full limit then { s with ahead := [], rest := [] } else s) := by
    intro s
    split <;> exact ⟨rfl, rfl, rfl⟩
  exact kept.trans (ended _)

variable (source : Source)

theorem unmoved_pull (s : State) (lexemes : List Lexeme) : Unmoved s (s.pull source lexemes) := by
  induction lexemes generalizing s with
  | nil => exact ⟨rfl, rfl, rfl⟩
  | cons l rest ih =>
      rw [pull]
      cases l.content with
      | ok t => exact ⟨rfl, rfl, rfl⟩
      | error cause =>
          have recorded := s.unmoved_record source.limits.errors
            (Diagnostic.locate source.text l.position cause)
          dsimp only
          split
          · exact recorded
          · exact recorded.trans (ih _)

theorem unmoved_look (s : State) (count : Nat) : Unmoved s (s.look source count) := by
  induction count with
  | zero => exact ⟨rfl, rfl, rfl⟩
  | succ count ih =>
      rw [look]
      split
      · exact ih.trans (unmoved_pull source _ _)
      · exact ih

end State

variable (source : Source)

theorem quiet_fail {α : Type} (position : Nat) (cause : Cause) :
    Quiet (fail source position cause : Parse α) := fun _ => keeps_throw _

theorem quiet_stalled {α : Type} : Quiet (stalled source : Parse α) := fun _ => keeps_throw _

theorem quiet_record (d : Diagnostic) : Quiet (record source d) :=
  quiet_of_same fun s => (s.unmoved_record _ _).same (s.looked_record _ _)

theorem same_look (s : State) (count : Nat) : Same s (s.look source count) :=
  (s.unmoved_look source count).same (s.looked_look source count)

theorem quiet_next? : Quiet (next? source) := quiet_of_same fun s => same_look source s 1

theorem quiet_peek : Quiet (peek source) := (quiet_next? source).bind fun _ => quiet_pure _

theorem quiet_peekSecond : Quiet (peekSecond source) :=
  quiet_of_same fun s => same_look source s 2

theorem quiet_position : Quiet (position source) :=
  (quiet_next? source).bind fun found => by
    cases found <;> exact quiet_pure _

theorem quiet_advance : Quiet (advance source) := by
  apply quiet_of_same
  intro s
  have unmoved := s.unmoved_look source 1
  have ends := ends_advance source s
  unfold Ends advance at *
  cases ahead_eq : (s.look source 1).ahead with
  | nil =>
      simp only [ahead_eq] at ends ⊢
      exact ⟨⟨unmoved.scopes, unmoved.frameSize, unmoved.loopDepth⟩,
        fun _ => (ends (.text "")).ahead, (ends (.text "")).suffix⟩
  | cons t ahead =>
      simp only [ahead_eq] at ends ⊢
      exact ⟨⟨unmoved.scopes, unmoved.frameSize, unmoved.loopDepth⟩, fun _ => ends.2.ahead,
        ends.2.suffix⟩

theorem quiet_check (sym : Sym) : Quiet (check source sym) :=
  (quiet_peek source).bind fun _ => quiet_pure _

theorem quiet_checkWord (word : String) : Quiet (checkWord source word) :=
  (quiet_peek source).bind fun _ => quiet_pure _

theorem quiet_eat (sym : Sym) : Quiet (eat source sym) :=
  (quiet_check source sym).bind fun _ =>
    quiet_ite ((quiet_advance source).bind fun _ => quiet_pure _) (quiet_pure _)

theorem quiet_eatWord (word : String) : Quiet (eatWord source word) :=
  (quiet_checkWord source word).bind fun _ =>
    quiet_ite ((quiet_advance source).bind fun _ => quiet_pure _) (quiet_pure _)

theorem quiet_expect (sym : Sym) (context : String) : Quiet (expect source sym context) :=
  (quiet_eat source sym).bind fun _ => quiet_ite (quiet_pure _) <|
    (quiet_position source).bind fun _ => (quiet_peek source).bind fun _ => quiet_fail source _ _

theorem quiet_eatAll (sym : Sym) (fuel : Nat) : Quiet (eatAll source sym fuel) := by
  induction fuel with
  | zero => exact quiet_stalled source
  | succ fuel ih => exact (quiet_eat source sym).bind fun _ => quiet_ite ih (quiet_pure _)

theorem quiet_synchronize (fuel depth : Nat) : Quiet (synchronize source fuel depth) := by
  induction fuel generalizing depth with
  | zero => exact quiet_stalled source
  | succ fuel ih =>
      apply (quiet_peek source).bind
      intro found
      cases found with
      | none => exact quiet_pure ()
      | some t =>
          have taken := quiet_advance source
          exact quiet_ite (taken.bind fun _ => quiet_pure _)
            (quiet_ite (quiet_pure _) (taken.bind fun _ => ih _))

theorem unmoved_searchRest (s : State) (seen : List (Nat × Token)) (depth : Nat)
    (lexemes : List Lexeme) : Unmoved s (searchRest source s seen depth lexemes).2 := by
  induction lexemes generalizing s seen depth with
  | nil => exact ⟨rfl, rfl, rfl⟩
  | cons l rest ih =>
      rw [searchRest]
      cases l.content with
      | ok t =>
          dsimp only
          cases verdict? depth t with
          | some b => exact ⟨rfl, rfl, rfl⟩
          | none => exact ih s _ _
      | error cause =>
          have recorded := s.unmoved_record source.limits.errors
            (Diagnostic.locate source.text l.position cause)
          dsimp only
          split
          · exact recorded
          · exact recorded.trans (ih _ _ _)

theorem quiet_vectorAhead : Quiet (vectorAhead source) := by
  apply (quiet_checkWord source "var").bind
  intro _
  apply quiet_ite (quiet_pure _)
  apply (quiet_checkWord source "const").bind
  intro _
  apply quiet_ite (quiet_pure _)
  apply quiet_modifyGet
  intro s
  cases searchAhead 0 s.ahead with
  | error b => exact Same.refl s
  | ok depth =>
      exact (unmoved_searchRest source s [] depth s.rest).same (looked_searchRest source s depth)

theorem quiet_get : Quiet get := quiet_of_same Same.refl

theorem quiet_declaredHere (name : String) : Quiet (declaredHere name) :=
  quiet_get.bind fun s => by
    cases s.scopes <;> exact quiet_pure _

end MathScript.Parse
