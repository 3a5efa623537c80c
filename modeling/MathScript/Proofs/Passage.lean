import MathScript.Compile
import MathScript.Proofs.Extents

/-!
What a parse does with the lexemes of its text, whatever it makes of them: it looks at one, takes
one, passes a fault or puts a diagnostic down. A passage is a course of such steps from one state
to another, with a record of it: which lexemes were taken, which diagnostics were put down. Behind
an opening brace or the word `repeat` stands a list of statements, and only lists put diagnostics of
faulty statements down: each is at the front of a state that was passed since the statement began.
-/

namespace MathScript

/-- What a parser says of a program, not of its characters nor of its own rounds. -/
def Cause.isProper (cause : Cause) : Bool := cause.category != .lexer && cause != .stalled

theorem Cause.category_ne_lexer {cause : Cause} (proper : cause.isProper = true) :
    cause.category ≠ .lexer := by
  simp only [isProper, Bool.and_eq_true, bne_iff_ne] at proper
  exact proper.1

theorem Cause.ne_stalled {cause : Cause} (proper : cause.isProper = true) : cause ≠ .stalled := by
  simp only [isProper, Bool.and_eq_true, bne_iff_ne] at proper
  exact proper.2

namespace Parse

variable (source : Source)

/-- Where a list of lexemes starts; the end of the text if it is empty. -/
def startOf : List Lexeme → Nat
  | [] => utf8Length source.text
  | l :: _ => l.position

namespace State

/-- The lexemes that are not taken yet. -/
def left (s : State) : List Lexeme := s.ahead.map (fun next => ⟨next.1, .ok next.2⟩) ++ s.rest

/-- Where the first lexeme stands that is not taken yet. -/
def front (s : State) : Nat := startOf source s.left

/-- Where the first lexeme stands that is not looked at yet. -/
def edge (s : State) : Nat := startOf source s.rest

/-- How much can be taken or put down from here on, at most. -/
def budget (s : State) : Nat := s.left.length + (source.limits.errors - s.diagnostics.size)

/-- The state behind a token that is taken. -/
def behind (s : State) (t : Token) (ahead : List (Nat × Token)) : State :=
  { s with ahead := ahead, afterBrace := t == .sym .rbrace }

end State

/-- What a step leaves on record. -/
inductive Entry where
  | taken (position : Nat) (t : Token)
  | noted (d : Diagnostic)

namespace Entry

def lexeme? : Entry → Option Lexeme
  | .taken position t => some ⟨position, .ok t⟩
  | .noted _ => none

def note? : Entry → Option Diagnostic
  | .taken .. => none
  | .noted d => some d

end Entry

/-- The lexemes that are taken, in order. -/
def takings (es : List Entry) : List Lexeme := es.filterMap Entry.lexeme?

/-- The diagnostics that are put down, in order. -/
def notes (es : List Entry) : List Diagnostic := es.filterMap Entry.note?

section

variable {position : Nat} {t : Token} {d : Diagnostic} {es es' : List Entry}

@[simp] theorem notes_nil : notes [] = [] := rfl

@[simp] theorem notes_taken : notes (.taken position t :: es) = notes es := rfl

@[simp] theorem notes_noted : notes (.noted d :: es) = d :: notes es := rfl

@[simp] theorem notes_append : notes (es ++ es') = notes es ++ notes es' := List.filterMap_append

@[simp] theorem notes_replicate (count : Nat) :
    notes (List.replicate count (.noted d)) = List.replicate count d :=
  List.filterMap_replicate_of_some rfl

@[simp] theorem takings_nil : takings [] = [] := rfl

@[simp] theorem takings_taken :
    takings (.taken position t :: es) = ⟨position, .ok t⟩ :: takings es := rfl

@[simp] theorem takings_append : takings (es ++ es') = takings es ++ takings es' :=
  List.filterMap_append

end

/-- Behind such a token a list of statements starts. -/
def opening : Token → Bool
  | .sym .lbrace | .word "repeat" => true
  | _ => false

/-- At such a token a list of statements can end. -/
def ending : Token → Bool
  | .sym .rbrace | .word "until" => true
  | _ => false

/-- One step, with whether it takes a token. -/
inductive Act : State → Bool → List Entry → State → Prop
  | look {s : State} {position : Nat} {t : Token} {rest : List Lexeme}
      (next : s.rest = ⟨position, .ok t⟩ :: rest) :
      Act s false [] { s with ahead := s.ahead ++ [(position, t)], rest := rest }
  | fault {s : State} {position : Nat} {cause : Cause} {rest : List Lexeme}
      (next : s.rest = ⟨position, .error cause⟩ :: rest) :
      Act s false [.noted (Diagnostic.locate source.text position cause)]
        (State.record { s with rest := rest } source.limits.errors
          (Diagnostic.locate source.text position cause))
  | take {s : State} {position : Nat} {t : Token} {ahead : List (Nat × Token)}
      (next : s.ahead = (position, t) :: ahead) :
      Act s true [.taken position t] (s.behind t ahead)
  /-- Scopes and loops are entered and left, locals declared. -/
  | turn {s s' : State} (ahead : s'.ahead = s.ahead) (rest : s'.rest = s.rest)
      (diagnostics : s'.diagnostics = s.diagnostics) : Act s false [] s'

/-- Steps in a row. -/
inductive Acts : State → Bool → List Entry → State → Prop
  | refl (s : State) : Acts s false [] s
  | step {took took' : Bool} {b s s' : State} {es es' : List Entry} (before : Acts b took es s)
      (act : Act source s took' es' s') : Acts b (took || took') (es ++ es') s'

/-- A course of steps with its record: through the inside of one statement, or through a list of
statements. It is told whether a token was taken that no diagnostic of a statement is owed to. -/
inductive Passage : Bool → State → Bool → List Entry → State → Prop
  | refl (list : Bool) (s : State) : Passage list s false [] s
  | act {list took took' : Bool} {b s s' : State} {es es' : List Entry}
      (before : Passage list b took es s) (act : Act source s took' es' s') :
      Passage list b (took || took') (es ++ es') s'
  | nest {list took took' : Bool} {b s s' : State} {es es' : List Entry} {position : Nat}
      {t : Token} {ahead : List (Nat × Token)} (before : Passage list b took es s)
      (next : s.ahead = (position, t) :: ahead) (opens : opening t = true)
      (inner : Passage true (s.behind t ahead) took' es' s') :
      Passage list b true (es ++ .taken position t :: es') s'
  /-- A faulty statement, and what is skipped behind it. A token was taken, or the last diagnostic
  took the place of one. -/
  | failed {took t₁ t₂ t₃ : Bool} {b s₀ m s s' : State} {es es₁ es₂ es₃ : List Entry}
      {cause : Cause} (before : Passage true b took es s₀) (first : Passage false s₀ t₁ es₁ m)
      (second : Passage false m t₂ es₂ s) (proper : cause.isProper = true)
      (open' : s.full source.limits.errors = false)
      (skipped : Acts source (s.record source.limits.errors
        (Diagnostic.locate source.text (m.front source) cause)) t₃ es₃ s')
      (progress : (t₁ || t₂ || t₃) = true ∨ s.left ≠ [] ∧ (s.record source.limits.errors
        (Diagnostic.locate source.text (m.front source) cause)).left = []) :
      Passage true b took (es ++ es₁ ++ es₂ ++
        .noted (Diagnostic.locate source.text (m.front source) cause) :: es₃) s'
  /-- At the limit of nesting, in front of a token that ends another list, one diagnostic is put
  down until no more are kept. -/
  | stuck {took : Bool} {b s s' : State} {es : List Entry} {position count : Nat} {t : Token}
      {ahead : List (Nat × Token)} {d : Diagnostic} (before : Passage true b took es s)
      (next : s.ahead = (position, t) :: ahead) (ends : ending t = true)
      (deep : d = Diagnostic.locate source.text position (.nestedTooDeep source.limits.nesting))
      (open' : s.full source.limits.errors = false)
      (size : s'.diagnostics.size = source.limits.errors)
      (diagnostics : s'.diagnostics.toList = s.diagnostics.toList ++ List.replicate count d)
      (none : s'.left = []) :
      Passage true b took (es ++ List.replicate count (.noted d)) s'

section

variable {source}
variable {list took took' : Bool} {b m s s' : State} {es es' : List Entry}

theorem Acts.trans (first : Acts source b took es m) (second : Acts source m took' es' s) :
    Acts source b (took || took') (es ++ es') s := by
  induction second with
  | refl => simpa using first
  | step _ act ih => simpa [Bool.or_assoc] using (ih first).step act

namespace Passage

theorem ofActs (acts : Acts source b took es s) : Passage source list b took es s := by
  induction acts with
  | refl => exact .refl list _
  | step _ act ih => exact ih.act act

/-- Inside of a statement, steps are steps of the list that it stands in. -/
theorem toList (passage : Passage source false b took es s) : Passage source true b took es s := by
  generalize kind : false = list at passage
  induction passage with
  | refl => exact .refl true _
  | act _ act ih => exact (ih kind).act act
  | nest _ next opens inner ih => exact (ih kind).nest next opens inner
  | failed => cases kind
  | stuck => cases kind

theorem trans (first : Passage source list b took es m)
    (second : Passage source list m took' es' s) :
    Passage source list b (took || took') (es ++ es') s := by
  induction second with
  | refl => simpa using first
  | act _ act ih => simpa [Bool.or_assoc] using (ih first).act act
  | nest _ next opens inner ih => simpa using (ih first).nest next opens inner
  | failed _ first' second' proper open' skipped progress ih =>
      simpa using (ih first).failed first' second' proper open' skipped progress
  | stuck _ next ends deep open' size diagnostics none ih =>
      simpa using (ih first).stuck next ends deep open' size diagnostics none

end Passage

end

/-! ### What is given -/

/-- The lexemes of the text, as a compilation gives them to a parse. -/
structure Given (given : List Lexeme) : Prop where
  ordered : given.Pairwise fun l l' => l.position ≤ l'.position
  inside : ∀ l ∈ given, l.position ≤ utf8Length source.text
  lexical : ∀ l ∈ given, ∀ cause, l.content = .error cause → cause.category = .lexer
  kept : 0 < source.limits.errors
  allowed : given.length + source.limits.errors < source.allowance

/-- What is left comes from the text; where no more diagnostics are kept, none is left. -/
structure Ready (given : List Lexeme) (s : State) : Prop where
  left : s.left.Sublist given
  spent : s.full source.limits.errors = true → s.left = []
  kept : s.diagnostics.size ≤ source.limits.errors

/-- What a passage keeps and what it uses up. -/
structure Moved (given : List Lexeme) (b : State) (took : Bool) (es : List Entry) (s : State) :
    Prop where
  ready : Ready source given s
  left : s.left.Sublist b.left
  rest : s.rest.Sublist b.rest
  budget : s.budget source + took.toNat ≤ b.budget source
  diagnostics : s.diagnostics.toList = b.diagnostics.toList ++ notes es
  whole : notes es = [] → b.left = takings es ++ s.left

variable {source} {given : List Lexeme}

namespace State

theorem left_ahead {s : State} {position : Nat} {t : Token} {ahead : List (Nat × Token)}
    (next : s.ahead = (position, t) :: ahead) :
    s.left = ⟨position, .ok t⟩ :: (s.behind t ahead).left := by
  simp [left, behind, next]

theorem front_ahead {s : State} {position : Nat} {t : Token} {ahead : List (Nat × Token)}
    (next : s.ahead = (position, t) :: ahead) : s.front source = position := by
  rw [front, left_ahead next, startOf]

theorem exists_ahead {s : State} {t : Token} (found : s.ahead.head?.map Prod.snd = some t) :
    ∃ ahead, s.ahead = (s.front source, t) :: ahead := by
  cases next : s.ahead with
  | nil => simp [next] at found
  | cons first ahead =>
      obtain ⟨position, t'⟩ := first
      obtain rfl : t' = t := by simpa [next] using found
      exact ⟨ahead, by rw [front_ahead next]⟩

theorem rest_sublist (s : State) : s.rest.Sublist s.left := List.sublist_append_right _ _

/-- Below the limit a diagnostic is kept. Nothing is left behind the last one. -/
theorem record_open {s : State} (open' : s.full source.limits.errors = false) (d : Diagnostic) :
    (s.record source.limits.errors d).diagnostics = s.diagnostics.push d ∧
      ((s.record source.limits.errors d).full source.limits.errors = true ∧
          (s.record source.limits.errors d).ahead = [] ∧
          (s.record source.limits.errors d).rest = [] ∨
        (s.record source.limits.errors d).full source.limits.errors = false ∧
          s.record source.limits.errors d = { s with diagnostics := s.diagnostics.push d }) := by
  simp only [record, open', Bool.false_eq_true, if_false]
  cases full : State.full { s with diagnostics := s.diagnostics.push d } source.limits.errors with
  | true =>
      rw [if_pos rfl]
      exact ⟨rfl, .inl ⟨full, rfl, rfl⟩⟩
  | false =>
      rw [if_neg Bool.false_ne_true]
      exact ⟨rfl, .inr ⟨full, rfl⟩⟩

end State

theorem Ready.open' {s : State} (ready : Ready source given s) (some : s.left ≠ []) :
    s.full source.limits.errors = false :=
  Bool.eq_false_iff.mpr fun full => some (ready.spent full)

namespace Moved

variable {b m s : State} {took took' : Bool} {es es' : List Entry}

theorem refl (ready : Ready source given s) : Moved source given s false [] s :=
  ⟨ready, .refl _, .refl _, Nat.le_refl _, by simp, fun _ => rfl⟩

theorem trans (first : Moved source given b took es m) (second : Moved source given m took' es' s) :
    Moved source given b (took || took') (es ++ es') s where
  ready := second.ready
  left := second.left.trans first.left
  rest := second.rest.trans first.rest
  budget := by
    have flags : (took || took').toNat ≤ took.toNat + took'.toNat := by
      cases took <;> cases took' <;> decide
    have := first.budget
    have := second.budget
    omega
  diagnostics := by
    rw [second.diagnostics, first.diagnostics, List.append_assoc, notes_append]
  whole := by
    intro none
    rw [notes_append, List.append_eq_nil_iff] at none
    rw [first.whole none.1, second.whole none.2, takings_append, List.append_assoc]

theorem less (moved : Moved source given b took es s) : Moved source given b false es s :=
  { moved with budget := Nat.le_trans (Nat.le_add_right _ _) moved.budget }

/-- A diagnostic is put down below the limit. -/
theorem record {d : Diagnostic} (ready : Ready source given s)
    (open' : s.full source.limits.errors = false) :
    Moved source given s true [.noted d] (s.record source.limits.errors d) := by
  obtain ⟨pushed, last⟩ := State.record_open open' d
  have below : s.diagnostics.size < source.limits.errors := by simpa [State.full] using open'
  have size : (s.record source.limits.errors d).diagnostics.size = s.diagnostics.size + 1 := by
    rw [pushed, Array.size_push]
  have diagnostics : (s.record source.limits.errors d).diagnostics.toList =
      s.diagnostics.toList ++ notes [.noted d] := by
    rw [pushed, Array.toList_push]
    rfl
  obtain ⟨-, ahead, rest⟩ | ⟨more, same⟩ := last
  · have none : (s.record source.limits.errors d).left = [] := by simp [State.left, ahead, rest]
    exact {
      ready := ⟨none ▸ List.nil_sublist _, fun _ => none, size ▸ below⟩
      left := none ▸ List.nil_sublist _
      rest := rest ▸ List.nil_sublist _
      budget := by
        rw [State.budget, State.budget, none, size]
        simp only [List.length_nil, Bool.toNat_true]
        omega
      diagnostics := diagnostics
      whole := by simp }
  · have left : (s.record source.limits.errors d).left = s.left := by rw [same]; rfl
    have rest : (s.record source.limits.errors d).rest = s.rest := by rw [same]
    exact {
      ready := ⟨left ▸ ready.left, fun full => by simp [more] at full, size ▸ below⟩
      left := left ▸ .refl _
      rest := rest ▸ .refl _
      budget := by
        rw [State.budget, State.budget, left, size]
        simp only [Bool.toNat_true]
        omega
      diagnostics := diagnostics
      whole := by simp }

/-- Lexemes are dropped in front, or between what is ahead and the rest. -/
theorem of_sublist {s' : State} (ready : Ready source given s) (left : s'.left.Sublist s.left)
    (rest : s'.rest.Sublist s.rest) (diagnostics : s'.diagnostics = s.diagnostics)
    (length : s'.left.length + took.toNat ≤ s.left.length) (silent : notes es = [])
    (whole : s.left = takings es ++ s'.left) : Moved source given s took es s' where
  ready :=
    { left := left.trans ready.left
      spent := fun full => List.sublist_nil.mp
        (ready.spent (by rwa [State.full, diagnostics] at full) ▸ left)
      kept := diagnostics ▸ ready.kept }
  left := left
  rest := rest
  budget := by
    rw [State.budget, State.budget, diagnostics]
    omega
  diagnostics := by rw [diagnostics, silent, List.append_nil]
  whole := fun _ => whole

/-- One diagnostic is put down until no more are kept. -/
theorem exhausted {s' : State} {d : Diagnostic} {count : Nat}
    (open' : s.full source.limits.errors = false)
    (size : s'.diagnostics.size = source.limits.errors)
    (diagnostics : s'.diagnostics.toList = s.diagnostics.toList ++ List.replicate count d)
    (none : s'.left = []) :
    Moved source given s true (List.replicate count (.noted d)) s' where
  ready := ⟨none ▸ List.nil_sublist _, fun _ => none, Nat.le_of_eq size⟩
  left := none ▸ List.nil_sublist _
  rest := List.sublist_nil.mp (none ▸ s'.rest_sublist) ▸ List.nil_sublist _
  budget := by
    have below : s.diagnostics.size < source.limits.errors := by simpa [State.full] using open'
    rw [State.budget, State.budget, none, size]
    simp only [List.length_nil, Bool.toNat_true]
    omega
  diagnostics := by simpa using diagnostics
  whole := by
    -- Below the limit there is room for one more.
    have below : s.diagnostics.size < source.limits.errors := by simpa [State.full] using open'
    have some : count ≠ 0 := by
      rintro rfl
      have same := congrArg List.length diagnostics
      simp only [List.replicate_zero, List.append_nil, Array.length_toList] at same
      omega
    intro silent
    simp [some] at silent

end Moved

/-- What one step keeps. -/
theorem Act.moved {s s' : State} {took : Bool} {es : List Entry} (act : Act source s took es s')
    (ready : Ready source given s) : Moved source given s took es s' := by
  cases act with
  | @look position t rest next =>
      have left : State.left { s with ahead := s.ahead ++ [(position, t)], rest := rest } =
          s.left := by
        simp [State.left, next]
      exact .of_sublist ready (left ▸ .refl _) (next ▸ List.sublist_cons_self _ _) rfl
        (by simp [left]) rfl left.symm
  | @fault position cause rest next =>
      -- The fault is dropped from what is left before its diagnostic is put down.
      have left : (State.left { s with rest := rest }).Sublist s.left := by
        simp [State.left, next]
      have open' : s.full source.limits.errors = false :=
        ready.open' (by simp [State.left, next])
      have dropped : Ready source given { s with rest := rest } :=
        ⟨left.trans ready.left, fun full => absurd full (Bool.eq_false_iff.mp open'), ready.kept⟩
      have recorded := Moved.record dropped
        (d := Diagnostic.locate source.text position cause) open'
      have shorter := left.length_le
      exact {
        ready := recorded.ready
        left := recorded.left.trans left
        rest := recorded.rest.trans (next ▸ List.sublist_cons_self _ _)
        budget := by
          have used := recorded.budget
          rw [State.budget, State.budget] at used ⊢
          simp only [Bool.toNat_true, Bool.toNat_false] at used ⊢
          omega
        diagnostics := recorded.diagnostics
        whole := by simp }
  | @take position t ahead next =>
      have left := State.left_ahead next
      exact .of_sublist ready (left ▸ List.sublist_cons_self _ _) (.refl _) rfl
        (by simp [left]) rfl left
  | turn ahead rest diagnostics =>
      have left : s'.left = s.left := by rw [State.left, ahead, rest, State.left]
      exact .of_sublist ready (left ▸ .refl _) (rest ▸ .refl _) diagnostics (by simp [left]) rfl
        left.symm

/-- What steps in a row keep. -/
theorem Acts.moved {took : Bool} {b s : State} {es : List Entry} (acts : Acts source b took es s)
    (ready : Ready source given b) : Moved source given b took es s := by
  induction acts with
  | refl => exact .refl ready
  | step _ act ih => exact (ih ready).trans (act.moved (ih ready).ready)

namespace Passage

variable {list took : Bool} {b s : State} {es : List Entry}

/-- What a passage keeps. -/
theorem moved (passage : Passage source list b took es s) (ready : Ready source given b) :
    Moved source given b took es s := by
  induction passage with
  | refl => exact .refl ready
  | act _ act ih => exact (ih ready).trans (act.moved (ih ready).ready)
  | nest _ next _ _ ih inner =>
      have taken := (Act.take next).moved (ih ready).ready
      simpa using (ih ready).trans (taken.trans (inner taken.ready))
  | @failed _ _ _ _ _ _ m _ _ _ _ _ _ cause _ _ _ _ open' skipped _ ih first second =>
      have round := (first (ih ready).ready).trans (second (first (ih ready).ready).ready)
      have recorded := Moved.record
        (d := Diagnostic.locate source.text (m.front source) cause) round.ready open'
      have behind := recorded.trans (skipped.moved recorded.ready)
      simpa using (ih ready).trans (round.trans behind).less
  | stuck _ _ _ _ open' size diagnostics none ih =>
      simpa using (ih ready).trans
        (Moved.exhausted open' size diagnostics none).less

end Passage

end Parse

end MathScript
