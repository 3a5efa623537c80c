import MathScript.Proofs.Flow
import MathScript.Proofs.Passage

/-!
Access to tokens as steps. Looking passes faults until a token is ahead or nothing is left, and
looking again changes nothing. What only looks ends in the state that is looked at; what takes a
token takes the one at the front of that state.
-/

namespace MathScript.Parse

variable {source : Source}

/-- From one state to another in steps. -/
def Stepped (source : Source) (b : State) (took : Bool) (s : State) : Prop :=
  ∃ es, Acts source b took es s

namespace Stepped

variable {b m s : State} {took took' : Bool}

theorem refl (s : State) : Stepped source s false s := ⟨[], .refl s⟩

theorem of_act {es : List Entry} (act : Act source b took es s) : Stepped source b took s :=
  ⟨_, by simpa using (Acts.refl b).step act⟩

theorem trans (first : Stepped source b took m) (second : Stepped source m took' s) :
    Stepped source b (took || took') s :=
  ⟨_, first.choose_spec.trans second.choose_spec⟩

end Stepped

namespace State

/-- A diagnostic is put down alike whatever is left. Behind the last one nothing is. -/
theorem record_with (s : State) (ahead : List (Nat × Token)) (rest : List Lexeme) (limit : Nat)
    (d : Diagnostic) :
    (s.record limit d).full limit = true ∧ (s.record limit d).rest = [] ∧
        State.record { s with ahead := ahead, rest := rest } limit d = s.record limit d ∨
      (s.record limit d).full limit = false ∧
        s.record limit d = { s with diagnostics := s.diagnostics.push d } ∧
        State.record { s with ahead := ahead, rest := rest } limit d =
          { s with ahead := ahead, rest := rest, diagnostics := s.diagnostics.push d } := by
  unfold record full
  by_cases full : limit ≤ s.diagnostics.size
  · simp [full]
  · by_cases last : limit ≤ s.diagnostics.size + 1 <;> simp [full, last]

theorem pull_rest (s : State) (stale ls : List Lexeme) :
    pull source { s with rest := stale } ls = pull source s ls := by
  induction ls generalizing s with
  | nil => rfl
  | cons l rest ih =>
      rw [pull, pull]
      cases l.content with
      | ok t => rfl
      | error cause =>
          obtain ⟨full, -, same⟩ | ⟨more, recorded, recorded'⟩ := s.record_with s.ahead stale
            source.limits.errors (Diagnostic.locate source.text l.position cause)
          · simp only [same, full, if_true]
          · simp only [recorded', recorded] at more ⊢
            rw [if_neg (by simpa [State.full] using more),
              if_neg (by simpa [State.full] using more)]
            exact ih { s with diagnostics := s.diagnostics.push _ }

/-- A token is ahead, unless nothing is left. -/
def Poised (s : State) : Prop := s.ahead = [] → s.rest = []

/-- Faults are passed one by one, then a token is looked at. -/
theorem stepped_pull (s : State) (ls : List Lexeme) (next : s.rest = ls) :
    Stepped source s false (s.pull source ls) ∧ (s.pull source ls).Poised := by
  induction ls generalizing s with
  | nil =>
      have same : s.pull source [] = s := by rw [pull, ← next]
      rw [same]
      exact ⟨.refl s, fun _ => next⟩
  | cons l rest ih =>
      obtain ⟨position, content⟩ := l
      rw [pull]
      cases content with
      | ok t => exact ⟨.of_act (.look next), fun none => by simp at none⟩
      | error cause =>
          have fault : Act source s false _ _ := .fault next
          obtain ⟨full, none, same⟩ | ⟨more, recorded, recorded'⟩ := s.record_with s.ahead rest
            source.limits.errors (Diagnostic.locate source.text position cause)
          · simp only [full, if_true]
            rw [same] at fault
            exact ⟨.of_act fault, fun _ => none⟩
          · rw [recorded'] at fault
            dsimp only
            rw [if_neg (by simp [more]), recorded]
            -- What is pulled from does not depend on the lexemes that the state still shows.
            rw [← pull_rest _ rest rest]
            obtain ⟨stepped, poised⟩ := ih { s with
              rest := rest
              diagnostics := s.diagnostics.push
                (Diagnostic.locate source.text position cause) } rfl
            exact ⟨(Stepped.of_act fault).trans stepped, poised⟩

theorem look_one (s : State) :
    s.look source 1 = if s.ahead.length ≤ 0 then s.pull source s.rest else s := rfl

/-- Looking at the next token only passes faults. -/
theorem stepped_look (s : State) : Stepped source s false (s.look source 1) := by
  rw [look_one]
  split
  · exact (s.stepped_pull s.rest rfl).1
  · exact .refl s

theorem poised_look (s : State) : (s.look source 1).Poised := by
  rw [look_one]
  split
  · exact (s.stepped_pull s.rest rfl).2
  · next some => exact fun none => absurd (by simp [none]) some

/-- Looking again changes nothing. -/
theorem look_poised {s : State} (poised : s.Poised) : s.look source 1 = s := by
  rw [look_one]
  split
  · next none =>
      have rest := poised (List.length_eq_zero_iff.mp (Nat.le_zero.mp none))
      rw [rest, pull, ← rest]
  · rfl

@[simp] theorem look_look (s : State) :
    (s.look source 1).look source 1 = s.look source 1 :=
  look_poised s.poised_look

theorem stepped_look_two (s : State) : Stepped source s false (s.look source 2) := by
  rw [look]
  split
  · exact s.stepped_look.trans ((s.look source 1).stepped_pull _ rfl).1
  · exact s.stepped_look

/-- Where the next token stands, once it is looked at. -/
theorem Poised.front {s : State} (poised : s.Poised) :
    s.front source = match s.ahead.head? with
      | some next => next.1
      | none => utf8Length source.text := by
  cases ahead : s.ahead with
  | nil => simp [State.front, left, ahead, poised ahead, startOf]
  | cons next rest => exact front_ahead ahead

end State

/-! ### Looking -/

section

variable (source)

theorem position_eq (s : State) :
    position source s = .ok ((s.look source 1).front source) (s.look source 1) := by
  rw [(s.poised_look).front]
  unfold position
  simp only [bind, EStateM.bind, next?]
  cases (s.look source 1).ahead.head? <;> rfl

theorem peek_eq (s : State) :
    peek source s = .ok ((s.look source 1).ahead.head?.map Prod.snd) (s.look source 1) := rfl

theorem check_eq (sym : Sym) (s : State) :
    check source sym s = .ok ((s.look source 1).ahead.head?.map Prod.snd == some (.sym sym))
      (s.look source 1) := rfl

theorem checkWord_eq (word : String) (s : State) :
    checkWord source word s = .ok
      ((s.look source 1).ahead.head?.map Prod.snd == some (.word word)) (s.look source 1) := rfl

theorem advance_none {s : State} (none : (s.look source 1).ahead = []) :
    advance source s = .ok Option.none { s.look source 1 with afterBrace := false } := by
  simp [advance, none]

theorem advance_some {s : State} {position : Nat} {t : Token} {ahead : List (Nat × Token)}
    (next : (s.look source 1).ahead = (position, t) :: ahead) :
    advance source s = .ok (some t) ((s.look source 1).behind t ahead) := by
  simp [advance, next, State.behind]

/-- Taking looks first. -/
theorem ends_advance_look {α : Type} {f : Option Token → Parse α} {s : State}
    {ok : α → State → Prop} {bad : Diagnostic → State → Prop}
    (ends : Ends (advance source >>= f) (s.look source 1) ok bad) :
    Ends (advance source >>= f) s ok bad := by
  have same : advance source (s.look source 1) = advance source s := by
    unfold advance
    rw [State.look_look]
  unfold Ends at *
  simp only [bind, EStateM.bind, same] at *
  exact ends

/-- If the token is ahead, it is taken; else it is looked at. -/
theorem ends_taken (t : Token) (s : State) :
    Ends (do
        if (← peek source) == some t then
          let _ ← advance source
          return true
        else return false : Parse Bool) s
      (fun taken s' =>
        if taken = true then ∃ position ahead, (s.look source 1).ahead = (position, t) :: ahead ∧
          s' = (s.look source 1).behind t ahead
        else s' = s.look source 1 ∧ s'.ahead.head?.map Prod.snd ≠ some t)
      fun _ _ => False := by
  apply ends_bind
  rw [Ends, peek_eq]
  dsimp only
  split
  · next there =>
      obtain ⟨ahead, next⟩ : ∃ ahead, (s.look source 1).ahead =
          ((s.look source 1).front source, t) :: ahead := State.exists_ahead (beq_iff_eq.mp there)
      apply ends_bind
      rw [Ends, advance_some source ((s.look_look).symm ▸ next), State.look_look]
      refine ends_pure ?_
      rw [if_pos rfl]
      exact ⟨_, ahead, next, rfl⟩
  · next other => exact ends_pure (by simpa using other)

theorem ends_eaten (sym : Sym) (s : State) :
    Ends (eat source sym) s
      (fun taken s' =>
        if taken = true then
          ∃ position ahead, (s.look source 1).ahead = (position, .sym sym) :: ahead ∧
            s' = (s.look source 1).behind (.sym sym) ahead
        else s' = s.look source 1 ∧ s'.ahead.head?.map Prod.snd ≠ some (.sym sym))
      fun _ _ => False :=
  ends_taken source (.sym sym) s

theorem ends_eatenWord (word : String) (s : State) :
    Ends (eatWord source word) s
      (fun taken s' =>
        if taken = true then
          ∃ position ahead, (s.look source 1).ahead = (position, .word word) :: ahead ∧
            s' = (s.look source 1).behind (.word word) ahead
        else s' = s.look source 1 ∧ s'.ahead.head?.map Prod.snd ≠ some (.word word))
      fun _ _ => False :=
  ends_taken source (.word word) s

/-- A token is taken, or none is left. -/
theorem ends_advancing (s : State) :
    Ends (advance source) s
      (fun found s' => match found with
        | some t => ∃ position ahead, (s.look source 1).ahead = (position, t) :: ahead ∧
            s' = (s.look source 1).behind t ahead
        | none => (s.look source 1).ahead = [] ∧ s' = { s.look source 1 with afterBrace := false })
      fun _ _ => False := by
  unfold Ends
  cases ahead : (s.look source 1).ahead with
  | nil =>
      rw [advance_none source ahead]
      exact ⟨rfl, rfl⟩
  | cons next rest =>
      rw [advance_some source ahead]
      exact ⟨_, _, rfl, rfl⟩

end

variable {s : State}

theorem Stepped.taking {position : Nat} {t : Token} {ahead : List (Nat × Token)}
    (next : (s.look source 1).ahead = (position, t) :: ahead) :
    Stepped source s true ((s.look source 1).behind t ahead) :=
  s.stepped_look.trans (.of_act (.take next))

/-! ### Looking far ahead -/

/-- What is passed is looked at, and faults on the way are put down. -/
theorem stepped_searchRest (s : State) (seen : List (Nat × Token)) (depth : Nat)
    (ls : List Lexeme) :
    Stepped source { s with ahead := s.ahead ++ seen.reverse, rest := ls } false
      (searchRest source s seen depth ls).2 := by
  induction ls generalizing s seen depth with
  | nil => exact .refl _
  | cons l rest ih =>
      obtain ⟨position, content⟩ := l
      rw [searchRest]
      cases content with
      | ok t =>
          have look : Act source { s with
              ahead := s.ahead ++ seen.reverse
              rest := ⟨position, .ok t⟩ :: rest } false [] _ := .look rfl
          dsimp only at look ⊢
          rw [List.append_assoc, ← List.reverse_cons] at look
          cases verdict? depth t with
          | some b => exact .of_act look
          | none => exact (Stepped.of_act look).trans (ih s ((position, t) :: seen) _)
      | error cause =>
          have fault : Act source { s with
              ahead := s.ahead ++ seen.reverse
              rest := ⟨position, .error cause⟩ :: rest } false _ _ := .fault rfl
          obtain ⟨full, -, same⟩ | ⟨more, recorded, recorded'⟩ :=
            s.record_with (s.ahead ++ seen.reverse) rest source.limits.errors
              (Diagnostic.locate source.text position cause)
          · dsimp only at fault ⊢
            rw [same] at fault
            rw [if_pos full]
            exact .of_act fault
          · dsimp only at fault ⊢
            rw [recorded'] at fault
            rw [if_neg (by simp [more]), recorded]
            have later := ih { s with
              diagnostics := s.diagnostics.push
                (Diagnostic.locate source.text position cause) } seen depth
            exact (Stepped.of_act fault).trans later

theorem ends_modifyGet {α : Type} {f : State → α × State} {s : State} {ok : α → State → Prop}
    {stopped : Diagnostic → State → Prop} (fine : ok (f s).1 (f s).2) :
    Ends (modifyGet f : Parse α) s ok stopped := fine

theorem ends_vectorAhead (s : State) :
    Ends (vectorAhead source) s (fun _ s' => Stepped source s false s') fun _ _ => False := by
  apply ends_bind
  rw [Ends, checkWord_eq]
  dsimp only
  split
  · exact ends_pure s.stepped_look
  · apply ends_bind
    rw [Ends, checkWord_eq, State.look_look]
    dsimp only
    split
    · exact ends_pure s.stepped_look
    · refine ends_modifyGet ?_
      cases searchAhead 0 (s.look source 1).ahead with
      | error b => exact s.stepped_look
      | ok depth =>
          have searched : Stepped source _ _ _ := stepped_searchRest (s.look source 1) [] depth
            (s.look source 1).rest
          simp only [List.reverse_nil, List.append_nil] at searched
          exact s.stepped_look.trans searched

end MathScript.Parse
