import Mathlib.Data.List.Forall2
import MathScript.Proofs.Onward

/-!
Two parses that walk abreast. They see the same tokens, up to positions, and put the same
diagnostics down, up to where these stand. Only the second may keep more of them. Where the first
keeps no more, it is at its end, and what it has kept stays a part of what the second keeps.
-/

namespace MathScript.Parse

open Renamable

variable {ι : Type}

/-- A side that differs from the first in nothing but where its tokens stand, how many diagnostics
it keeps and how many rounds its lists have. Which diagnostics are alike is told by `alike`. -/
structure Sides.Abreast (c : Sides ι) (i : ι) (alike : Diagnostic → Diagnostic → Prop) : Prop where
  plain : c.Plain i
  knowing : c.unknown i = none
  strict : ¬ c.lax i
  errors : c.source.limits.errors ≤ (c.others i).limits.errors
  ending : c.near i (utf8Length c.source.text) (utf8Length (c.others i).text)
  located : ∀ here there cause, c.near i here there →
    alike (Diagnostic.locate c.source.text here cause)
      (Diagnostic.locate (c.others i).text there cause)

/-- An end of which the state is changed. -/
def leaving {α : Type} (after : State → State) :
    EStateM.Result Diagnostic State α → EStateM.Result Diagnostic State α
  | .ok a s => .ok a (after s)
  | .error d s => .error d (after s)

theorem inScope_eq {α : Type} (x : Parse α) (s : State) : inScope x s =
    leaving (fun s => { s with scopes := s.scopes.drop 1 })
      (x { s with scopes := [] :: s.scopes }) := by
  unfold inScope
  cases x { s with scopes := [] :: s.scopes } <;> rfl

theorem inLoop_eq {α : Type} (x : Parse α) (s : State) : inLoop x s =
    leaving (fun s => { s with loopDepth := s.loopDepth - 1 })
      (x { s with loopDepth := s.loopDepth + 1 }) := by
  unfold inLoop
  cases x { s with loopDepth := s.loopDepth + 1 } <;> rfl

variable (c : Sides ι) (i : ι) (alike : Diagnostic → Diagnostic → Prop)

/-- States that have come equally far, below the limit of the first. -/
structure Level (s s' : State) : Prop where
  ahead : List.Forall₂ (fun next next' => c.near i next.1 next'.1 ∧ next.2 = next'.2)
    s.ahead s'.ahead
  rest : List.Forall₂ (fun l l' => c.near i l.position l'.position ∧ l.content = l'.content)
    s.rest s'.rest
  noted : List.Forall₂ alike s.diagnostics.toList s'.diagnostics.toList
  more : s.full c.source.limits.errors = false
  scopes : s'.scopes = s.scopes
  frameSize : s'.frameSize = s.frameSize
  loopDepth : s'.loopDepth = s.loopDepth
  afterBrace : s'.afterBrace = s.afterBrace

/-- States of which the first comes to nothing more, or shows that its rounds were too few. -/
inductive Severed (s s' : State) : Prop
  | cut (full : s.full c.source.limits.errors = true) (nothing : s.left = [])
      (kept : ∃ ds, ds <+: s'.diagnostics.toList ∧ List.Forall₂ alike s.diagnostics.toList ds)
  | stalled {d : Diagnostic} (noted : d ∈ s.diagnostics.toList) (cause : d.cause = .stalled)

variable {α β : Type}

/-- How two parses end that were level. -/
inductive Meets : EStateM.Result Diagnostic State α → EStateM.Result Diagnostic State α → Prop
  | ok {s s' : State} (a : α) (level : Level c i alike s s') : Meets (.ok a s) (.ok a s')
  | error {s s' : State} {d d' : Diagnostic} (like : alike d d') (level : Level c i alike s s') :
      Meets (.error d s) (.error d' s')
  | stalled {s : State} {d : Diagnostic} {r : EStateM.Result Diagnostic State α}
      (cause : d.cause = .stalled) (more : s.full c.source.limits.errors = false) :
      Meets (.error d s) r
  | parted {r r' : EStateM.Result Diagnostic State α}
      (parted : Severed c alike (lastState r) (lastState r')) : Meets r r'

/-- Parsers that go on from where they are, and from level states alike. -/
structure Together (x y : Parse α) : Prop where
  first : Onward c.source x
  second : Onward (c.others i) y
  meets : ∀ s s', Level c i alike s s' → Meets c i alike (x s) (y s')

theorem Onward.later {source : Source} {x : Parse α} (onward : Onward source x) (s : State) :
    Later source.limits.errors s (lastState (x s)) :=
  ends_lastState.mp (onward s)

/-- What is done last comes behind what is done first. -/
theorem later_bind {source : Source} {x : Parse α} {f : α → Parse β}
    (rest : ∀ a, Onward source (f a)) (s : State) :
    Later source.limits.errors (lastState (x s)) (lastState ((x >>= f) s)) := by
  cases done : x s with
  | ok a m =>
      rw [bind_completed done]
      exact (rest a).later m
  | error d m =>
      rw [bind_stopped done]
      exact .refl m

variable {c i alike}

/-- Severed states do not meet again. -/
theorem Severed.later {s s' m m' : State} (parted : Severed c alike s s')
    (first : Later c.source.limits.errors s m)
    (second : s'.diagnostics.toList <+: m'.diagnostics.toList) : Severed c alike m m' := by
  cases parted with
  | cut full nothing kept =>
      obtain ⟨nothing', same⟩ := first.spent full nothing
      obtain ⟨ds, part, likes⟩ := kept
      refine .cut (by rwa [State.full, same]) nothing' ⟨ds, part.trans second, ?_⟩
      rwa [same]
  | stalled noted cause => exact .stalled (first.kept.subset noted) cause

/-! ### Looking -/

namespace Level

variable {s s' : State}

theorem more' (level : Level c i alike s s') (side : c.Abreast i alike) :
    s'.full (c.others i).limits.errors = false := by
  have sizes : s.diagnostics.size = s'.diagnostics.size := level.noted.length_eq
  have errors := side.errors
  have more := level.more
  simp only [State.full, decide_eq_false_iff_not, Nat.not_le] at more ⊢
  omega

/-- A diagnostic is put down on both sides. The first may keep no more behind it. -/
theorem record (level : Level c i alike s s') (side : c.Abreast i alike) {d d' : Diagnostic}
    (like : alike d d') :
    (s.record c.source.limits.errors d).full c.source.limits.errors = true ∧
        Severed c alike (s.record c.source.limits.errors d)
          (s'.record (c.others i).limits.errors d') ∨
      (s.record c.source.limits.errors d = { s with diagnostics := s.diagnostics.push d } ∧
        s'.record (c.others i).limits.errors d' =
          { s' with diagnostics := s'.diagnostics.push d' }) ∧
        Level c i alike { s with diagnostics := s.diagnostics.push d }
          { s' with diagnostics := s'.diagnostics.push d' } := by
  have sizes : s.diagnostics.size = s'.diagnostics.size := level.noted.length_eq
  have errors := side.errors
  have likes : List.Forall₂ alike (s.diagnostics.push d).toList (s'.diagnostics.push d').toList := by
    simp only [Array.toList_push]
    exact List.rel_append level.noted (.cons like .nil)
  obtain ⟨pushed, last⟩ := State.record_open level.more d
  obtain ⟨pushed', last'⟩ := State.record_open (level.more' side) d'
  rcases last with ⟨full, ahead, rest⟩ | ⟨open', same⟩
  · refine .inl ⟨full, .cut full ?_ ⟨_, List.prefix_rfl, ?_⟩⟩
    · simp [State.left, ahead, rest]
    · rwa [pushed, pushed']
  · have same' := last'.resolve_left ?_
    · exact .inr ⟨⟨same, same'.2⟩, { level with noted := likes, more := same ▸ open' }⟩
    · rintro ⟨full', -, -⟩
      simp only [State.full, pushed, pushed', Array.size_push, decide_eq_false_iff_not,
        decide_eq_true_eq] at open' full'
      omega

theorem behind (level : Level c i alike s s') {ahead ahead' : List (Nat × Token)} (t : Token)
    (nexts : List.Forall₂ (fun next next' => c.near i next.1 next'.1 ∧ next.2 = next'.2)
      ahead ahead') : Level c i alike (s.behind t ahead) (s'.behind t ahead') :=
  { level with ahead := nexts, afterBrace := rfl }

theorem tokens (level : Level c i alike s s') :
    s.ahead.map Prod.snd = s'.ahead.map Prod.snd := by
  have aheads := level.ahead
  generalize s.ahead = ahead, s'.ahead = ahead' at aheads
  induction aheads with
  | nil => rfl
  | cons first _ ih => rw [List.map_cons, List.map_cons, first.2, ih]

/-- Nothing is ahead on either side, or one token is on both. -/
theorem heads (level : Level c i alike s s') : s.ahead = [] ∧ s'.ahead = [] ∨
    ∃ here there t ahead ahead', s.ahead = (here, t) :: ahead ∧ s'.ahead = (there, t) :: ahead' ∧
      c.near i here there ∧ Level c i alike (s.behind t ahead) (s'.behind t ahead') := by
  have aheads := level.ahead
  generalize next : s.ahead = ahead, next' : s'.ahead = ahead' at aheads
  cases aheads with
  | nil => exact .inl ⟨rfl, rfl⟩
  | @cons first first' ahead ahead' near nexts =>
      obtain ⟨here, t⟩ := first
      obtain ⟨there, t'⟩ := first'
      obtain ⟨near, rfl⟩ := near
      exact .inr ⟨here, there, t, ahead, ahead', rfl, rfl, near, level.behind t nexts⟩

end Level

/-- Pulling only adds to the diagnostics. -/
theorem kept_pull {source : Source} (s : State) (ls : List Lexeme) :
    s.diagnostics.toList <+: (s.pull source ls).diagnostics.toList := by
  have later : Later source.limits.errors { s with rest := ls } _ :=
    (State.stepped_pull { s with rest := ls } ls rfl).1.later
  rw [State.pull_rest] at later
  exact later.kept

/-- Faults are passed on both sides. -/
theorem Level.pull (side : c.Abreast i alike) {s s' : State} (level : Level c i alike s s')
    {ls ls' : List Lexeme}
    (given : List.Forall₂ (fun l l' => c.near i l.position l'.position ∧ l.content = l'.content)
      ls ls') :
    Level c i alike (s.pull c.source ls) (s'.pull (c.others i) ls') ∨
      Severed c alike (s.pull c.source ls) (s'.pull (c.others i) ls') := by
  induction given generalizing s s' with
  | nil => exact .inl { level with rest := .nil }
  | @cons l l' rest rest' same given ih =>
      obtain ⟨here, content⟩ := l
      obtain ⟨there, content'⟩ := l'
      obtain ⟨near, rfl : content = content'⟩ := same
      cases content with
      | ok t =>
          exact .inl { level with
            ahead := List.rel_append level.ahead (.cons ⟨near, rfl⟩ .nil)
            rest := given }
      | error cause =>
          simp only [State.pull]
          rcases level.record side (side.located here there cause near) with
            ⟨full, parted⟩ | ⟨⟨same, same'⟩, level⟩
          · rw [if_pos full]
            refine .inr (parted.later (.refl _) ?_)
            split
            · exact List.prefix_rfl
            · exact kept_pull _ rest'
          · rw [same, same', if_neg (Bool.eq_false_iff.mp level.more),
              if_neg (Bool.eq_false_iff.mp (level.more' side))]
            exact ih level

/-- Level states are looked at alike. -/
theorem Level.look (side : c.Abreast i alike) {s s' : State} (level : Level c i alike s s')
    (count : Nat) : Level c i alike (s.look c.source count) (s'.look (c.others i) count) ∨
      Severed c alike (s.look c.source count) (s'.look (c.others i) count) := by
  induction count with
  | zero => exact .inl level
  | succ count ih =>
      simp only [State.look]
      rcases ih with level | parted
      · rw [← level.ahead.length_eq]
        split
        · exact level.pull side level.rest
        · exact .inl level
      · refine .inr (parted.later ?_ ?_)
        · split
          · exact (State.stepped_pull _ _ rfl).1.later
          · exact .refl _
        · split
          · exact kept_pull _ _
          · exact List.prefix_rfl

/-- What is looked for behind an opening brace. -/
def search (source : Source) (s : State) : Bool × State :=
  match searchAhead 0 s.ahead with
  | .error b => (b, s)
  | .ok depth => searchRest source s [] depth s.rest

theorem lastState_attempt (x : Parse α) (s : State) :
    lastState (attempt x s) = lastState (x s) := by
  unfold attempt
  cases x s <;> rfl

theorem onward_search {source : Source} : Onward source (modifyGet (search source)) :=
  onward_stepped fun s => by
    change ∃ took, Stepped source s took (search source s).2
    refine ⟨false, ?_⟩
    unfold search
    cases searchAhead 0 s.ahead with
    | error b => exact .refl s
    | ok depth =>
        have searched : Stepped source _ _ _ := stepped_searchRest s [] depth s.rest
        simpa using searched

namespace Together

section

variable {x : Parse α} {y : Parse α}

/-- What looks at the next token first need be compared only where it is looked at already. -/
theorem of_look (side : c.Abreast i alike) (first : Onward c.source x)
    (second : Onward (c.others i) y) (looks : ∀ s, x (s.look c.source 1) = x s)
    (looks' : ∀ s, y (s.look (c.others i) 1) = y s)
    (poised : ∀ s s', Level c i alike s s' → s.Poised → s'.Poised → Meets c i alike (x s) (y s')) :
    Together c i alike x y where
  first := first
  second := second
  meets := fun s s' level => by
    rw [← looks, ← looks']
    rcases level.look side 1 with level | parted
    · exact poised _ _ level s.poised_look s'.poised_look
    · exact .parted (parted.later (first.later _) (second.later _).kept)

theorem pure (a : α) : Together c i alike (pure a) (pure a) :=
  ⟨onward_pure a, onward_pure a, fun _ _ level => .ok a level⟩

theorem throw {d d' : Diagnostic} (like : alike d d') :
    Together c i alike (throw d : Parse α) (throw d') :=
  ⟨onward_throw d, onward_throw d', fun _ _ level => .error like level⟩

theorem fail (side : c.Abreast i alike) {here there : Nat} (near : c.near i here there)
    (cause : Cause) :
    Together c i alike (fail c.source here cause : Parse α) (fail (c.others i) there cause) :=
  throw (side.located here there cause near)

theorem bind {f g : α → Parse β} (part : Together c i alike x y)
    (rest : ∀ a, Together c i alike (f a) (g a)) : Together c i alike (x >>= f) (y >>= g) where
  first := part.first.bind fun a => (rest a).first
  second := part.second.bind fun a => (rest a).second
  meets := fun s s' level => by
    have later := later_bind (x := x) (fun a => (rest a).first) s
    have later' := later_bind (x := y) (fun a => (rest a).second) s'
    have met := part.meets s s' level
    generalize done : x s = r, done' : y s' = r' at met later later'
    cases met with
    | ok a level =>
        rw [bind_completed done, bind_completed done']
        exact (rest a).meets _ _ level
    | error like level =>
        rw [bind_stopped done, bind_stopped done']
        exact .error like level
    | stalled cause more =>
        rw [bind_stopped done]
        exact .stalled cause more
    | parted parted => exact .parted (parted.later later later'.kept)

theorem ite {p : Prop} [Decidable p] {x' y' : Parse α} (yes : Together c i alike x y)
    (no : Together c i alike x' y') :
    Together c i alike (if p then x else x') (if p then y else y') := by
  split
  · exact yes
  · exact no

end

/-! ### Moves -/

section

variable (side : c.Abreast i alike)

include side

theorem peek : Together c i alike (peek c.source) (peek (c.others i)) := by
  refine of_look side onward_peek onward_peek (fun s => ?_) (fun s => ?_)
    fun s s' level poised poised' => ?_
  · rw [peek_eq, peek_eq, State.look_look]
  · rw [peek_eq, peek_eq, State.look_look]
  · rw [peek_eq, peek_eq, State.look_poised poised, State.look_poised poised']
    rcases level.heads with ⟨none, none'⟩ | ⟨here, there, t, ahead, ahead', next, next', -, -⟩
    · rw [none, none']
      exact .ok _ level
    · rw [next, next']
      exact .ok _ level

theorem position {f g : Nat → Parse α}
    (rest : ∀ here there, c.near i here there → Together c i alike (f here) (g there)) :
    Together c i alike (position c.source >>= f) (position (c.others i) >>= g) := by
  refine of_look side (onward_position.bind fun here => ?_) (onward_position.bind fun place => ?_)
    (fun s => ?_) (fun s => ?_) fun s s' level poised poised' => ?_
  · obtain ⟨there, near⟩ := c.toward here
    exact (rest here (there i) (near i)).first
  · obtain ⟨here, there, near, rfl⟩ := c.back i place
    exact (rest here (there i) (near i)).second
  · rw [bind_completed (position_eq _ _), bind_completed (position_eq _ _), State.look_look]
  · rw [bind_completed (position_eq _ _), bind_completed (position_eq _ _), State.look_look]
  · rw [bind_completed (position_eq _ _), bind_completed (position_eq _ _),
      State.look_poised poised, State.look_poised poised']
    refine (rest _ _ ?_).meets _ _ level
    rw [poised.front, poised'.front]
    rcases level.heads with ⟨none, none'⟩ | ⟨here, there, t, ahead, ahead', next, next', near, -⟩
    · rw [none, none']
      exact side.ending
    · rw [next, next']
      exact near

theorem taking {γ : Type} (found? : Token → Option γ) {f g : Nat → γ → Parse α} {x y : Parse α}
    (yes : ∀ t r, found? t = some r → ∀ here there, c.near i here there →
      Together c i alike (f here r) (g there r)) (no : Together c i alike x y) :
    Together c i alike (taking c.source found? f x) (taking (c.others i) found? g y) := by
  refine of_look side (onward_taking (fun t r found here => ?_) no.first)
    (onward_taking (fun t r found place => ?_) no.second) (fun s => ?_) (fun s => ?_)
    fun s s' level poised poised' => ?_
  · obtain ⟨there, near⟩ := c.toward here
    exact (yes t r found here (there i) (near i)).first
  · obtain ⟨here, there, near, rfl⟩ := c.back i place
    exact (yes t r found here (there i) (near i)).second
  · unfold Parse.taking
    rw [State.look_look]
  · unfold Parse.taking
    rw [State.look_look]
  · unfold Parse.taking
    rw [State.look_poised poised, State.look_poised poised']
    rcases level.heads with ⟨none, none'⟩ | ⟨here, there, t, ahead, ahead', next, next', near, on⟩
    · rw [none, none']
      exact no.meets _ _ level
    · rw [next, next']
      dsimp only
      cases found : found? t with
      | none => exact no.meets _ _ level
      | some r => exact (yes t r found here there near).meets _ _ on

theorem advance : Together c i alike (advance c.source) (advance (c.others i)) := by
  refine of_look side onward_advance onward_advance (fun s => ?_) (fun s => ?_)
    fun s s' level poised poised' => ?_
  · unfold Parse.advance
    rw [State.look_look]
  · unfold Parse.advance
    rw [State.look_look]
  · unfold Parse.advance
    rw [State.look_poised poised, State.look_poised poised']
    dsimp only
    rcases level.heads with ⟨none, none'⟩ | ⟨here, there, t, ahead, ahead', next, next', near, on⟩
    · rw [none, none']
      exact .ok _ { level with ahead := .nil, afterBrace := rfl }
    · rw [next, next']
      exact .ok _ on

theorem peekSecond : Together c i alike (peekSecond c.source) (peekSecond (c.others i)) where
  first := onward_stepped fun s => ⟨false, s.stepped_look_two⟩
  second := onward_stepped fun s => ⟨false, s.stepped_look_two⟩
  meets := fun s s' level => by
    unfold Parse.peekSecond
    rcases level.look side 2 with level | parted
    · dsimp only
      rw [← List.head?_map, ← List.head?_map, List.map_drop, List.map_drop, ← level.tokens]
      exact .ok _ level
    · exact .parted parted

theorem check (sym : Sym) : Together c i alike (check c.source sym) (check (c.others i) sym) :=
  (peek side).bind fun _ => pure _

theorem checkWord (word : String) :
    Together c i alike (checkWord c.source word) (checkWord (c.others i) word) :=
  (peek side).bind fun _ => pure _

theorem eat (sym : Sym) : Together c i alike (eat c.source sym) (eat (c.others i) sym) :=
  (check side sym).bind fun _ => ite ((advance side).bind fun _ => pure _) (pure _)

theorem eatWord (word : String) :
    Together c i alike (eatWord c.source word) (eatWord (c.others i) word) :=
  (checkWord side word).bind fun _ => ite ((advance side).bind fun _ => pure _) (pure _)

end

/-- What is read of the state is the same on both sides. -/
theorem get {f g : State → Parse α} (first : ∀ s, Onward c.source (f s))
    (second : ∀ s, Onward (c.others i) (g s))
    (rest : ∀ s s', Level c i alike s s' → Meets c i alike (f s s) (g s' s')) :
    Together c i alike (get >>= f) (get >>= g) :=
  ⟨onward_get first, onward_get second, rest⟩

/-- Rounds that end too soon on the first side. -/
theorem stalled {y : Parse α} (second : Onward (c.others i) y) :
    Together c i alike (stalled c.source) y :=
  ⟨onward_throw _, second, fun _ _ level => .stalled rfl level.more⟩

/-! ### Scopes and loops -/

/-- A part of which both states are changed alike, before it and behind it. -/
theorem within {x y x' y' : Parse α} (part : Together c i alike x y)
    (first : Onward c.source x') (second : Onward (c.others i) y') {before after : State → State}
    (run : ∀ s, x' s = leaving after (x (before s)))
    (run' : ∀ s, y' s = leaving after (y (before s)))
    (enters : ∀ s s', Level c i alike s s' → Level c i alike (before s) (before s'))
    (leaves : ∀ s s', Level c i alike s s' → Level c i alike (after s) (after s'))
    (tokens : ∀ s, (after s).ahead = s.ahead ∧ (after s).rest = s.rest)
    (diagnostics : ∀ s, (after s).diagnostics = s.diagnostics) : Together c i alike x' y' where
  first := first
  second := second
  meets := fun s s' level => by
    rw [run, run']
    have met := part.meets _ _ (enters s s' level)
    generalize x (before s) = r, y (before s') = r' at met
    cases met with
    | ok a level => exact .ok a (leaves _ _ level)
    | error like level => exact .error like (leaves _ _ level)
    | @stalled s _ _ cause more => exact .stalled cause (by rwa [State.full, diagnostics])
    | parted parted =>
        have turn : ∀ limit s, Later limit s (after s) := fun limit s =>
          .turn (tokens s).1 (tokens s).2 (diagnostics s)
        refine .parted ?_
        cases r <;> cases r' <;> exact parted.later (turn _ _) (turn 0 _).kept

theorem inScope {x y : Parse α} (part : Together c i alike x y) :
    Together c i alike (inScope x) (inScope y) := by
  refine within part part.first.inScope part.second.inScope (fun s => inScope_eq x s)
    (fun s => inScope_eq y s) (fun s s' level => ?_) (fun s s' level => ?_)
    (fun _ => ⟨rfl, rfl⟩) fun _ => rfl
  · exact { level with scopes := congrArg ([] :: ·) level.scopes }
  · exact { level with scopes := congrArg (List.drop 1) level.scopes }

theorem inLoop {x y : Parse α} (part : Together c i alike x y) :
    Together c i alike (inLoop x) (inLoop y) := by
  refine within part part.first.inLoop part.second.inLoop (fun s => inLoop_eq x s)
    (fun s => inLoop_eq y s) (fun s s' level => ?_) (fun s s' level => ?_)
    (fun _ => ⟨rfl, rfl⟩) fun _ => rfl
  · exact { level with loopDepth := congrArg (· + 1) level.loopDepth }
  · exact { level with loopDepth := congrArg (· - 1) level.loopDepth }

theorem requireLoop (side : c.Abreast i alike) {here there : Nat} (near : c.near i here there)
    (keyword : String) :
    Together c i alike (requireLoop c.source here keyword)
      (requireLoop (c.others i) there keyword) := by
  have refused := fail (α := Unit) side near (.outsideLoop keyword)
  refine get (fun s => onward_ite refused.first (onward_pure _))
    (fun s => onward_ite refused.second (onward_pure _)) fun s s' level => ?_
  rw [level.loopDepth]
  exact (ite refused (pure ())).meets s s' level

theorem declareLocal (name : String) (kind : Kind) (writable : Bool) :
    Together c i alike (declareLocal name kind writable) (declareLocal name kind writable) where
  first := onward_modifyGet (fun _ => rfl) (fun _ => rfl) fun _ => rfl
  second := onward_modifyGet (fun _ => rfl) (fun _ => rfl) fun _ => rfl
  meets := fun s s' level => by
    have declared : Parse.declareLocal name kind writable s' = .ok s.frameSize _ :=
      congrArg (EStateM.Result.ok · _) level.frameSize
    rw [declared]
    refine .ok _ { level with scopes := ?_, frameSize := congrArg (· + 1) level.frameSize }
    rw [level.scopes, level.frameSize]

theorem declaredHere (name : String) :
    Together c i alike (declaredHere name) (declaredHere name) := by
  refine get (fun s => ?_) (fun s => ?_) fun s s' level => ?_
  · cases s.scopes <;> exact onward_pure _
  · cases s.scopes <;> exact onward_pure _
  · rw [level.scopes]
    cases s.scopes <;> exact .ok _ level

section

variable (side : c.Abreast i alike)

include side

theorem declaration {e e' : Parse Typed} {constant : Bool}
    (values : ∀ name here there, c.near i here there →
      Together c i alike (initialValue c.source e name constant here)
        (initialValue (c.others i) e' name constant there)) :
    Together c i alike (declaration c.source e constant)
      (declaration (c.others i) e' constant) := by
  refine (advance side).bind fun _ => position side fun here there near =>
    (advance side).bind fun found => ?_
  split
  · exact ite (fail side near _) <| (declaredHere _).bind fun _ =>
      ite (fail side near _) <| (values _ here there near).bind fun _ =>
        (declareLocal _ _ _).bind fun _ => pure _
  · exact fail side near _

theorem otherwise {e e' : Parse Typed} (reads : Together c i alike e e') :
    Together c i alike (otherwise? c.source e) (otherwise? (c.others i) e') :=
  (eatWord side _).bind fun _ => ite (reads.bind fun _ => pure _) <|
    (check side _).bind fun _ => ite ((peekSecond side).bind fun _ =>
      ite ((advance side).bind fun _ => (advance side).bind fun _ => reads.bind fun _ => pure _)
        (pure _)) (pure _)

theorem vectorLength {here there : Nat} (near : c.near i here there) (size : Tree) :
    Together c i alike (vectorLength c.source size here)
      (vectorLength (c.others i) size there) := by
  unfold Parse.vectorLength
  rw [(c.strict i side.strict).2]
  dsimp only
  split
  · exact ite (fail side near _) (ite (pure _) (fail side near _))
  · exact fail side near _

/-! ### Looking far ahead -/

omit side in
theorem searchAhead_eq {s s' : State} (level : Level c i alike s s') (depth : Nat) :
    searchAhead depth s'.ahead = searchAhead depth s.ahead := by
  have aheads := level.ahead
  generalize s.ahead = ahead, s'.ahead = ahead' at aheads
  induction aheads generalizing depth with
  | nil => rfl
  | @cons next next' _ _ same _ ih =>
      obtain ⟨here, t⟩ := next
      obtain ⟨there, t'⟩ := next'
      obtain ⟨-, rfl : t = t'⟩ := same
      simp only [searchAhead]
      cases verdict? depth t with
      | some b => rfl
      | none => exact ih _

theorem searchRest {s s' : State} (level : Level c i alike s s') {seen seen' : List (Nat × Token)}
    (seens : List.Forall₂ (fun next next' => c.near i next.1 next'.1 ∧ next.2 = next'.2)
      seen seen') (depth : Nat) {ls ls' : List Lexeme}
    (given : List.Forall₂ (fun l l' => c.near i l.position l'.position ∧ l.content = l'.content)
      ls ls') :
    (searchRest c.source s seen depth ls).1 = (searchRest (c.others i) s' seen' depth ls').1 ∧
        Level c i alike (searchRest c.source s seen depth ls).2
          (searchRest (c.others i) s' seen' depth ls').2 ∨
      Severed c alike (searchRest c.source s seen depth ls).2
        (searchRest (c.others i) s' seen' depth ls').2 := by
  have looked : ∀ {seen seen' : List (Nat × Token)},
      List.Forall₂ (fun next next' => c.near i next.1 next'.1 ∧ next.2 = next'.2) seen seen' →
      List.Forall₂ (fun next next' => c.near i next.1 next'.1 ∧ next.2 = next'.2)
        (s.ahead ++ seen.reverse) (s'.ahead ++ seen'.reverse) :=
    fun seens => List.rel_append level.ahead (List.rel_reverse seens)
  induction given generalizing s s' seen seen' depth with
  | nil => exact .inl ⟨rfl, { level with ahead := looked seens, rest := .nil }⟩
  | @cons l l' rest rest' same given ih =>
      obtain ⟨here, content⟩ := l
      obtain ⟨there, content'⟩ := l'
      obtain ⟨near, rfl : content = content'⟩ := same
      cases content with
      | ok t =>
          have more := List.Forall₂.cons (R := fun next next' : Nat × Token =>
            c.near i next.1 next'.1 ∧ next.2 = next'.2) (a := (here, t)) (b := (there, t))
            ⟨near, rfl⟩ seens
          simp only [Parse.searchRest]
          cases verdict? depth t with
          | some b => exact .inl ⟨rfl, { level with ahead := looked more, rest := given }⟩
          | none => exact ih level more _ looked
      | error cause =>
          simp only [Parse.searchRest]
          rcases level.record side (side.located here there cause near) with
            ⟨full, parted⟩ | ⟨⟨same, same'⟩, level'⟩
          · rw [if_pos full]
            refine .inr (parted.later (.refl _) ?_)
            split
            · exact List.prefix_rfl
            · exact (stepped_searchRest _ seen' depth rest').later.kept
          · rw [same, same', if_neg (Bool.eq_false_iff.mp level'.more),
              if_neg (Bool.eq_false_iff.mp (level'.more' side))]
            exact ih level' seens depth looked

theorem vectorAhead : Together c i alike (vectorAhead c.source) (vectorAhead (c.others i)) := by
  refine (checkWord side _).bind fun _ => ite (pure _) <| (checkWord side _).bind fun _ =>
    ite (pure _) ⟨onward_search, onward_search, fun s s' level => ?_⟩
  change Meets c i alike (.ok (search c.source s).1 (search c.source s).2)
    (.ok (search (c.others i) s').1 (search (c.others i) s').2)
  unfold search
  rw [searchAhead_eq level]
  cases Parse.searchAhead 0 s.ahead with
  | error b => exact .ok b level
  | ok depth =>
      rcases searchRest side level .nil depth level.rest with ⟨same, level⟩ | parted
      · dsimp only
        rw [← same]
        exact .ok _ level
      · exact .parted parted

/-! ### Lists of statements -/

theorem record {d d' : Diagnostic} (like : alike d d') :
    Together c i alike (record c.source d) (record (c.others i) d') where
  first := onward_record d
  second := onward_record d'
  meets := fun s s' level => by
    change Meets c i alike (.ok () (s.record c.source.limits.errors d))
      (.ok () (s'.record (c.others i).limits.errors d'))
    rcases level.record side like with ⟨-, parted⟩ | ⟨⟨same, same'⟩, level⟩
    · exact .parted parted
    · rw [same, same']
      exact .ok () level

theorem synchronize {fuel further : Nat} (rounds : c.Fuels fuel further) (depth : Nat) :
    Together c i alike (synchronize c.source fuel depth)
      (synchronize (c.others i) further depth) := by
  induction rounds using Sides.Fuels.induction generalizing depth with
  | none => exact stalled (onward_synchronize _ _)
  | first => exact stalled (onward_synchronize _ _)
  | round fuel further rounds ih =>
      refine (peek side).bind fun found => ?_
      cases found with
      | none => exact pure _
      | some t =>
          exact ite ((advance side).bind fun _ => pure _) <|
            ite (pure _) ((advance side).bind fun _ => ih _)

theorem eatAll (sym : Sym) {fuel further : Nat} (rounds : c.Fuels fuel further) :
    Together c i alike (eatAll c.source sym fuel) (eatAll (c.others i) sym further) := by
  induction rounds using Sides.Fuels.induction with
  | none => exact stalled (onward_eatAll _ _)
  | first => exact stalled (onward_eatAll _ _)
  | round fuel further rounds ih => exact (eat side sym).bind fun _ => ite ih (pure _)

theorem atStop (stop : Stop) :
    Together c i alike (atStop c.source stop) (atStop (c.others i) stop) := by
  refine (peek side).bind fun found => ?_
  cases found with
  | none => exact pure _
  | some t => cases stop <;> exact pure _

theorem separated (stop : Stop) :
    Together c i alike (separated c.source stop) (separated (c.others i) stop) := by
  have part := (eat side .semicolon).bind fun taken =>
    ite (p := taken = true) (pure true) (atStop side stop)
  refine get (fun s => onward_ite (onward_pure _) part.first)
    (fun s => onward_ite (onward_pure _) part.second) fun s s' level => ?_
  rw [level.afterBrace]
  exact (ite (pure true) part).meets s s' level

theorem recover {d d' : Diagnostic} (like : alike d d') :
    Together c i alike (recover c.source d) (recover (c.others i) d') := by
  refine (record side like).bind fun _ => synchronize side ?_ 0
  rw [c.allowance]
  exact c.allowed

omit side in
/-- Too few rounds are put down as a diagnostic on the first side. -/
theorem ran {f : Unit → Parse α} {d : Diagnostic} (first : ∀ u, Onward c.source (f u))
    (cause : d.cause = .stalled) {s : State} (more : s.full c.source.limits.errors = false)
    (s' : State) : Severed c alike (lastState ((Parse.record c.source d >>= f) s)) s' := by
  have noted : d ∈ (s.record c.source.limits.errors d).diagnostics.toList := by
    rw [(State.record_open more d).1]
    simp
  exact .stalled (((first ()).later _).kept.subset noted) cause

omit side in
/-- Behind a part it is seen how the part has ended. -/
theorem attempt {x y : Parse α} {f g : Except Diagnostic α → Parse β}
    (part : Together c i alike x y) (ok : ∀ a, Together c i alike (f (.ok a)) (g (.ok a)))
    (error : ∀ d d', alike d d' → Together c i alike (f (.error d)) (g (.error d')))
    (first : ∀ d, Onward c.source (f (.error d)))
    (second : ∀ d, Onward (c.others i) (g (.error d)))
    (stalls : ∀ d s, d.cause = .stalled → s.full c.source.limits.errors = false → ∀ s',
      Severed c alike (lastState (f (.error d) s)) s') :
    Together c i alike (Parse.attempt x >>= f) (Parse.attempt y >>= g) := by
  have first' : ∀ r, Onward c.source (f r) := Except.rec first fun a => (ok a).first
  have second' : ∀ r, Onward (c.others i) (g r) := Except.rec second fun a => (ok a).second
  refine ⟨part.first.attempt.bind first', part.second.attempt.bind second', fun s s' level => ?_⟩
  have later := later_bind (x := Parse.attempt x) first' s
  have later' := later_bind (x := Parse.attempt y) second' s'
  have met := part.meets s s' level
  generalize done : x s = r, done' : y s' = r' at met
  cases met with
  | ok a level =>
      rw [bind_completed (attempt_ok done), bind_completed (attempt_ok done')]
      exact (ok a).meets _ _ level
  | error like level =>
      rw [bind_completed (attempt_error done), bind_completed (attempt_error done')]
      exact (error _ _ like).meets _ _ level
  | stalled cause more =>
      rw [bind_completed (attempt_error done)]
      exact .parted (stalls _ _ cause more _)
  | parted parted =>
      rw [lastState_attempt, done] at later
      rw [lastState_attempt, done'] at later'
      exact .parted (parted.later later later'.kept)

theorem statements {e e' : Parse Typed}
    (reads : Together c i alike (statement c.source e) (statement (c.others i) e'))
    {fuel further : Nat} (rounds : c.Fuels fuel further) (stop : Stop) (items : List Typed) :
    Together c i alike (statements c.source e stop fuel items)
      (statements (c.others i) e' stop further items) := by
  have ends : ∀ fuel items, Onward c.source (Parse.statements c.source e stop fuel items) :=
    onward_statements reads.first stop
  have ends' : ∀ fuel items, Onward (c.others i) (Parse.statements (c.others i) e' stop fuel items) :=
    onward_statements reads.second stop
  induction rounds using Sides.Fuels.induction generalizing items with
  | none => exact ⟨ends _ _, ends' _ _, fun _ _ level => .parted (ran onward_pure rfl level.more _)⟩
  | first => exact ⟨ends _ _, ends' _ _, fun _ _ level => .parted (ran onward_pure rfl level.more _)⟩
  | round fuel further rounds ih =>
      have allowed : c.Fuels c.source.allowance (c.others i).allowance := c.allowance i ▸ c.allowed
      refine (eatAll side _ allowed).bind fun _ => (atStop side stop).bind fun _ =>
        ite (pure _) (attempt reads (fun item => ?_) (fun d d' like => ?_) (fun d => ?_) (fun d => ?_)
          fun d s cause more s' => ?_)
      · exact (separated side stop).bind fun _ => ite (ih _) <|
          position side fun here there near => (peek side).bind fun t =>
            (recover side (side.located here there _ near)).bind fun _ => ih _
      · exact (recover side like).bind fun _ => ih _
      · exact (onward_recover d).bind fun _ => ends _ _
      · exact (onward_recover d).bind fun _ => ends' _ _
      · dsimp only [Parse.recover]
        rw [bind_assoc]
        exact ran (fun _ => (onward_synchronize _ _).bind fun _ => ends _ _) cause more s'

/-! ### Operands -/

theorem prefixed {inner inner' : Parse Typed}
    (plain : ∀ t, (∀ name, t = .word name → steers name = true) → ∀ here there,
      c.near i here there →
        Together c i alike (headed c.source inner here t) (headed (c.others i) inner' there t))
    (locals : ∀ binding here there, c.near i here there →
      Together c i alike (access c.source (expression c.source inner) binding here)
        (access (c.others i) (expression (c.others i) inner') binding there))
    (globals : ∀ name, steers name = false → ∀ here there, c.near i here there →
      Together c i alike (global c.source (expression c.source inner) name here)
        (global (c.others i) (expression (c.others i) inner') name there)) :
    Together c i alike (prefixed c.source inner) (prefixed (c.others i) inner') := by
  have first : Onward c.source (Parse.prefixed c.source inner) := by
    refine onward_prefixed (fun t other here => ?_) (fun binding here => ?_) fun name names here => ?_
    all_goals obtain ⟨there, near⟩ := c.toward here
    · exact (plain t other here (there i) (near i)).first
    · exact (locals binding here (there i) (near i)).first
    · exact (globals name names here (there i) (near i)).first
  have second : Onward (c.others i) (Parse.prefixed (c.others i) inner') := by
    refine onward_prefixed (fun t other place => ?_) (fun binding place => ?_)
      fun name names place => ?_
    all_goals obtain ⟨here, there, near, rfl⟩ := c.back i place
    · exact (plain t other here (there i) (near i)).second
    · exact (locals binding here (there i) (near i)).second
    · exact (globals name names here (there i) (near i)).second
  refine of_look side first second (fun s => ?_) (fun s => ?_) fun s s' level poised poised' => ?_
  · rw [prefixed_eq, prefixed_eq, State.look_look]
  · rw [prefixed_eq, prefixed_eq, State.look_look]
  · rw [prefixed_eq, prefixed_eq, State.look_poised poised, State.look_poised poised']
    rcases level.heads with ⟨none, none'⟩ | ⟨here, there, t, ahead, ahead', next, next', near, on⟩
    · rw [none, none']
      exact .error (side.located _ _ _ side.ending) { level with afterBrace := rfl }
    · rw [next, next']
      dsimp only
      by_cases semicolon : t = .sym .semicolon
      · rw [if_pos semicolon, if_pos semicolon]
        exact .error (side.located _ _ _ near) level
      · rw [if_neg semicolon, if_neg semicolon]
        by_cases name : ∃ name, t = .word name ∧ steers name = false
        · obtain ⟨name, rfl, names⟩ := name
          rw [headed_name c.source inner here names, headed_name (c.others i) inner' there names]
          rw [identifier_eq, identifier_eq, on.scopes]
          cases findLocal name (s.behind (.word name) ahead).scopes with
          | some l => exact (locals _ here there near).meets _ _ on
          | none => exact (globals name names here there near).meets _ _ on
        · refine (plain t (fun word same => ?_) here there near).meets _ _ on
          exact Bool.not_eq_false _ ▸ fun names => name ⟨word, same, names⟩

end

end Together

/-! ### Twins -/

variable {b : Bool} [Renamable α]

/-- A position of one side stands for one of the first, which has others that stand for it. -/
theorem Sides.extend {here place : Nat} (near : c.near i here place) :
    ∃ there, c.Near here there ∧ there i = place := by
  obtain ⟨there, nears, same⟩ := Sides.extendAll (fun _ => place) (· = i)
    fun j same => same ▸ near
  exact ⟨there, nears, same i rfl⟩

/-- A parser and what it is on a side that walks abreast go together. -/
theorem Twins.together (side : c.Abreast i alike) {x : Parse α} {y : ι → Parse α}
    (twins : Twins c b x y) : Together c i alike x (y i) := by
  have plain : c.naming i = fun _ => none := side.plain
  induction twins with
  | done a =>
      simp only [plain, rename_none]
      exact .pure a
  | bind _ _ first rest =>
      refine first.bind fun a => ?_
      simpa only [plain, rename_none] using rest a
  | inside _ ih => exact ih
  | stalled _ _ ih => exact .stalled ih.second
  | tooDeep strict =>
      rw [strict i side.strict]
      refine .position side fun here there near => ?_
      rw [(c.strict i side.strict).1]
      exact .fail side near _
  | fail near same =>
      dsimp only
      rw [same i side.plain]
      exact .fail side (near i) _
  | refuse near => exact (Together.peek side).bind fun _ => .fail side (near i) _
  | position _ rest =>
      refine .position side fun here place near => ?_
      obtain ⟨there, nears, rfl⟩ := Sides.extend near
      exact rest here there nears
  | glance seen _ _ _ rest => exact (Together.peek side).bind fun t => rest (seen t)
  | take found? _ _ _ _ yes no =>
      refine .taking side found? (fun t r found here place near => ?_) no
      obtain ⟨there, nears, rfl⟩ := Sides.extend near
      exact yes t r found here there nears
  | operand _ _ _ heads locals globals =>
      simp only [side.knowing, blind]
      refine .prefixed side (fun t other here place near => ?_) (fun binding here place near => ?_)
        fun name names here place near => ?_
      all_goals obtain ⟨there, nears, rfl⟩ := Sides.extend near
      · exact heads t other here there nears
      · simpa only [plain, Binding.rename_none] using locals binding here there nears
      · exact globals name names here there nears
  | requireLoop near keyword => exact .requireLoop side (near i) keyword
  | vectorLength near size =>
      simp only [plain, Tree.rename_none]
      exact .vectorLength side (near i) size
  | otherwise _ ih => exact .otherwise side ih
  | vectorAhead => exact .vectorAhead side
  | inScope _ ih => exact ih.inScope
  | inLoop _ ih => exact ih.inLoop
  | declaring _ _ _ values yes no =>
      refine (Together.checkWord side _).bind fun _ => .ite
        ((Together.declaration side fun name here place near => ?_).bind fun node => ?_) no
      · obtain ⟨there, nears, rfl⟩ := Sides.extend near
        exact values name (fun _ => name) (fun _ _ => rfl) here there nears
      · simpa only [plain, rename_none] using yes node
  | statements _ rounds stop items ih =>
      have same : Typed.rename (fun _ => none) = id := funext rename_none
      simp only [plain, same, List.map_id]
      exact .statements side ih rounds stop items

end MathScript.Parse
