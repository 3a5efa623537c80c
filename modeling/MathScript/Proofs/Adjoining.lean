import MathScript.Proofs.Mentions

/-!
One statement, read alone and in front of others. Its tokens are no brackets, and none of them
starts or ends another statement or declares a name. Where the statement alone comes to the end of
its text, the other parse comes to a `;`; no move tells the one from the other, but in what the
diagnostic says was found. So both end alike, for a cause of one category, with the same tokens left
of the statement, and nothing that was there before has changed.
-/

namespace MathScript.Parse

open Renamable

/-- No `;`, no bracket and none of the words that start or end a list of statements or that declare a
name. -/
def sentential : Token → Bool
  | .sym .semicolon | .sym .lparen | .sym .rparen | .sym .lbracket | .sym .rbracket | .sym .lbrace
  | .sym .rbrace => false
  | .word name => !(["repeat", "until", "var", "const"].contains name)
  | _ => true

/-- Tokens of one statement, without faults. -/
def Sentence (ls : List Lexeme) : Prop := ∀ l ∈ ls, ∃ t, l.content = .ok t ∧ sentential t = true

instance (ls : List Lexeme) : Decidable (Sentence ls) :=
  decidable_of_iff (∀ l ∈ ls, l.content.toOption.any sentential = true) <| by
    refine forall₂_congr fun l _ => ?_
    cases l.content <;> simp [Except.toOption]

/-- What may stand behind a statement: nothing, or a `;` and more tokens. -/
def Tail (ls : List Lexeme) : Prop :=
  (∀ l ∈ ls, ∃ t, l.content = .ok t) ∧ ∀ l, ls.head? = some l → l.content = .ok (.sym .semicolon)

theorem leads_sentential {t : Token} (plain : sentential t = true) : leads t = false := by
  cases t with
  | sym sym => cases sym <;> first | rfl | cases plain
  | word name =>
      simp only [sentential, List.contains_eq_mem, List.mem_cons, List.not_mem_nil, or_false,
        Bool.not_eq_true', decide_eq_false_iff_not, not_or] at plain
      simp [leads, plain]
  | _ => rfl

/-- What a parse has come to besides its tokens. -/
structure State.Settled (base s : State) : Prop where
  diagnostics : s.diagnostics = base.diagnostics
  scopes : s.scopes = base.scopes
  frameSize : s.frameSize = base.frameSize
  loopDepth : s.loopDepth = base.loopDepth
  afterBrace : s.afterBrace = false

/-- In front of the rest of a statement alone, and in front of the same with a tail. -/
structure Adjoins (tail : List Lexeme) (base base' s s' : State) : Prop where
  sentence : Sentence s.left
  settled : base.Settled s
  settled' : base'.Settled s'
  left : ∃ front, s'.left = front ++ tail ∧
    front.map Lexeme.content = s.left.map Lexeme.content

/-- How a statement ends alone, and in front of a tail. -/
inductive Apace {α : Type} (tail : List Lexeme) (base base' : State) :
    EStateM.Result Diagnostic State α → EStateM.Result Diagnostic State α → Prop
  | ok {s s' : State} (a : α) (adjoins : Adjoins tail base base' s s') :
      Apace tail base base' (.ok a s) (.ok a s')
  | error {s s' : State} {d d' : Diagnostic} (same : d.category = d'.category)
      (adjoins : Adjoins tail base base' s s') : Apace tail base base' (.error d s) (.error d' s')
  | stalled {s : State} {d : Diagnostic} {r : EStateM.Result Diagnostic State α}
      (cause : d.cause = .stalled) : Apace tail base base' (.error d s) r

/-- Parsers that end alike on a statement alone and on one in front of a tail. -/
def Beneath {α : Type} (tail : List Lexeme) (base base' : State) (x y : Parse α) : Prop :=
  ∀ s s', Adjoins tail base base' s s' → Apace tail base base' (x s) (y s')

namespace Adjoins

variable {tail : List Lexeme} {base base' s s' : State}

theorem faultless (adjoins : Adjoins tail base base' s s') :
    ∀ l ∈ s.rest, ∃ t, l.content = .ok t := fun l inside => by
  obtain ⟨t, content, -⟩ := adjoins.sentence l (s.rest_sublist.subset inside)
  exact ⟨t, content⟩

theorem faultless' (adjoins : Adjoins tail base base' s s') (behind : Tail tail) :
    ∀ l ∈ s'.rest, ∃ t, l.content = .ok t := fun l inside => by
  obtain ⟨front, left, same⟩ := adjoins.left
  have there := s'.rest_sublist.subset inside
  rw [left] at there
  rcases List.mem_append.mp there with there | there
  · have listed : l.content ∈ s.left.map Lexeme.content :=
      same ▸ List.mem_map_of_mem there
    obtain ⟨l', inside', content⟩ := List.mem_map.mp listed
    obtain ⟨t, content', -⟩ := adjoins.sentence l' inside'
    exact ⟨t, content.symm.trans content'⟩
  · exact behind.1 l there

end Adjoins

namespace State

variable {base s m : State}

theorem Settled.scanned (settled : base.Settled s) (scanned : Scanned s m) : base.Settled m where
  diagnostics := scanned.clean.trans settled.diagnostics
  scopes := scanned.scopes.trans settled.scopes
  frameSize := scanned.frameSize.trans settled.frameSize
  loopDepth := scanned.loopDepth.trans settled.loopDepth
  afterBrace := scanned.afterBrace.trans settled.afterBrace

/-- What a poised state has ahead is told by what is left. -/
theorem Poised.none (poised : s.Poised) : s.left = [] ↔ s.ahead = [] := by
  unfold left
  rw [List.append_eq_nil_iff, List.map_eq_nil_iff]
  exact ⟨And.left, fun none => ⟨none, poised none⟩⟩

theorem Poised.next (poised : s.Poised) {l : Lexeme} {ls : List Lexeme} (left : s.left = l :: ls) :
    ∃ t ahead, l.content = .ok t ∧ s.ahead = (l.position, t) :: ahead ∧
      (s.behind t ahead).left = ls := by
  cases ahead : s.ahead with
  | nil => rw [poised.none.mpr ahead] at left; cases left
  | cons first rest =>
      obtain ⟨here, t⟩ := first
      rw [left_ahead ahead] at left
      cases left
      exact ⟨t, rest, rfl, rfl, rfl⟩

end State

namespace Adjoins

variable {tail : List Lexeme} {base base' s s' : State}

theorem look (adjoins : Adjoins tail base base' s s') (behind : Tail tail) (source source' : Source) :
    Adjoins tail base base' (s.look source 1) (s'.look source' 1) := by
  have scanned := scanned_look adjoins.faultless source 1
  have scanned' := scanned_look (adjoins.faultless' behind) source' 1
  exact ⟨scanned.left ▸ adjoins.sentence, adjoins.settled.scanned scanned,
    adjoins.settled'.scanned scanned', by rw [scanned.left, scanned'.left]; exact adjoins.left⟩

/-- A token of the statement is ahead of both, or nothing is ahead of the first and nothing or a `;`
of the other. -/
theorem heads (adjoins : Adjoins tail base base' s s') (behind : Tail tail) (poised : s.Poised)
    (poised' : s'.Poised) :
    (s.ahead = [] ∧ (s'.ahead = [] ∨ ∃ there ahead', s'.ahead = (there, .sym .semicolon) :: ahead')) ∨
    ∃ here there t ahead ahead', s.ahead = (here, t) :: ahead ∧ s'.ahead = (there, t) :: ahead' ∧
      sentential t = true ∧ Adjoins tail base base' (s.behind t ahead) (s'.behind t ahead') := by
  obtain ⟨front, left', same⟩ := adjoins.left
  cases left : s.left with
  | nil =>
      rw [left, List.map_nil, List.map_eq_nil_iff] at same
      rw [same, List.nil_append] at left'
      refine .inl ⟨poised.none.mp left, ?_⟩
      cases tail with
      | nil => exact .inl (poised'.none.mp left')
      | cons l ls =>
          obtain ⟨t, ahead', content, next, -⟩ := poised'.next left'
          rw [behind.2 l rfl] at content
          cases content
          exact .inr ⟨_, ahead', next⟩
  | cons l ls =>
      obtain ⟨t, ahead, content, next, rest⟩ := poised.next left
      obtain ⟨t₁, content₁, plain⟩ := adjoins.sentence l (left ▸ List.mem_cons_self)
      obtain rfl : t = t₁ := Except.ok.inj (content.symm.trans content₁)
      cases front with
      | nil => rw [left] at same; cases same
      | cons l' front =>
          rw [left, List.map_cons, List.map_cons, List.cons.injEq] at same
          obtain ⟨t', ahead', content', next', rest'⟩ := poised'.next left'
          obtain rfl : t = t' := Except.ok.inj (content.symm.trans (same.1.symm.trans content'))
          have brace : (t == .sym .rbrace) = false := by
            refine beq_eq_false_iff_ne.mpr ?_
            rintro rfl
            cases plain
          refine .inr ⟨_, _, t, ahead, ahead', next, next', plain, ?_, ?_, ?_, front, rest', ?_⟩
          · rw [rest]
            exact fun l inside => adjoins.sentence l (left ▸ List.mem_cons_of_mem _ inside)
          · exact { adjoins.settled with afterBrace := brace }
          · exact { adjoins.settled' with afterBrace := brace }
          · rw [rest]
            exact same.2

end Adjoins

/-! ### Moves -/

namespace Beneath

variable {tail : List Lexeme} {base base' : State} {α β : Type} {x y : Parse α}

/-- What looks at the next token first need be compared only where it is looked at already. -/
theorem of_look (behind : Tail tail) (source source' : Source)
    (looks : ∀ s, x (s.look source 1) = x s) (looks' : ∀ s, y (s.look source' 1) = y s)
    (poised : ∀ s s', Adjoins tail base base' s s' → s.Poised → s'.Poised →
      Apace tail base base' (x s) (y s')) : Beneath tail base base' x y := fun s s' adjoins => by
  rw [← looks, ← looks']
  exact poised _ _ (adjoins.look behind source source') s.poised_look s'.poised_look

theorem bind {f g : α → Parse β} (part : Beneath tail base base' x y)
    (rest : ∀ a, Beneath tail base base' (f a) (g a)) :
    Beneath tail base base' (x >>= f) (y >>= g) := fun s s' adjoins => by
  have apace := part s s' adjoins
  generalize done : x s = r, done' : y s' = r' at apace
  cases apace with
  | ok a adjoins =>
      rw [bind_completed done, bind_completed done']
      exact rest a _ _ adjoins
  | error same adjoins =>
      rw [bind_stopped done, bind_stopped done']
      exact .error same adjoins
  | stalled cause =>
      rw [bind_stopped done]
      exact .stalled cause

variable (behind : Tail tail) {source source' : Source}

include behind

/-- A token of the statement is seen alike, and its end like a `;`. -/
theorem glance {γ : Type} {seen : Option Token → γ} (last : seen none = seen (some (.sym .semicolon)))
    {f g : γ → Parse α} (rest : ∀ r, Beneath tail base base' (f r) (g r)) :
    Beneath tail base base' (peek source >>= fun t => f (seen t))
      (peek source' >>= fun t => g (seen t)) := by
  refine of_look behind source source' (fun s => ?_) (fun s => ?_)
    fun s s' adjoins poised poised' => ?_
  · rw [bind_completed (peek_eq _ _), bind_completed (peek_eq _ _), State.look_look]
  · rw [bind_completed (peek_eq _ _), bind_completed (peek_eq _ _), State.look_look]
  · rw [bind_completed (peek_eq _ _), bind_completed (peek_eq _ _), State.look_poised poised,
      State.look_poised poised']
    rcases adjoins.heads behind poised poised' with
      ⟨none, none' | ⟨there, ahead', next'⟩⟩ | ⟨here, there, t, ahead, ahead', next, next', -, -⟩
    · rw [none, none']
      exact rest _ s s' adjoins
    · rw [none, next']
      have goes := rest (seen Option.none) s s' adjoins
      change Apace tail base base' (f (seen Option.none) s) (g (seen (some (.sym .semicolon))) s')
      rwa [← last]
    · rw [next, next']
      exact rest _ s s' adjoins

theorem position {f g : Nat → Parse α}
    (rest : ∀ here there, Beneath tail base base' (f here) (g there)) :
    Beneath tail base base' (position source >>= f) (position source' >>= g) := by
  refine of_look behind source source' (fun s => ?_) (fun s => ?_) fun s s' adjoins poised poised' => ?_
  · rw [bind_completed (position_eq _ _), bind_completed (position_eq _ _), State.look_look]
  · rw [bind_completed (position_eq _ _), bind_completed (position_eq _ _), State.look_look]
  · rw [bind_completed (position_eq _ _), bind_completed (position_eq _ _), State.look_poised poised,
      State.look_poised poised']
    exact rest _ _ s s' adjoins

theorem taking {γ : Type} {found? : Token → Option γ} {f g : Nat → γ → Parse α}
    (last : found? (.sym .semicolon) = none)
    (yes : ∀ t r, found? t = some r → sentential t = true → ∀ here there,
      Beneath tail base base' (f here r) (g there r))
    (no : Beneath tail base base' x y) :
    Beneath tail base base' (taking source found? f x) (taking source' found? g y) := by
  refine of_look behind source source' (fun s => ?_) (fun s => ?_) fun s s' adjoins poised poised' => ?_
  · unfold Parse.taking
    rw [State.look_look]
  · unfold Parse.taking
    rw [State.look_look]
  · unfold Parse.taking
    rw [State.look_poised poised, State.look_poised poised']
    rcases adjoins.heads behind poised poised' with
      ⟨none, none' | ⟨there, ahead', next'⟩⟩ |
        ⟨here, there, t, ahead, ahead', next, next', plain, on⟩
    · rw [none, none']
      exact no s s' adjoins
    · rw [none, next']
      dsimp only
      rw [last]
      exact no s s' adjoins
    · rw [next, next']
      dsimp only
      cases found : found? t with
      | none => exact no s s' adjoins
      | some r => exact yes t r found plain here there _ _ on

theorem prefixed {inner inner' : Parse Typed} (scopes : base'.scopes = base.scopes)
    (heads : ∀ t, (∀ name, t = .word name → steers name = true) → sentential t = true →
      ∀ here there, Beneath tail base base' (headed source inner here t)
        (headed source' inner' there t))
    (locals : ∀ (binding : Binding) here there, Beneath tail base base'
      (access source (expression source inner) binding here)
      (access source' (expression source' inner') binding there))
    (globals : ∀ name, steers name = false → ∀ here there, Beneath tail base base'
      (global source (expression source inner) name here)
      (global source' (expression source' inner') name there)) :
    Beneath tail base base' (prefixed source inner) (prefixed source' inner') := by
  refine of_look behind source source' (fun s => ?_) (fun s => ?_) fun s s' adjoins poised poised' => ?_
  · rw [prefixed_eq, prefixed_eq, State.look_look]
  · rw [prefixed_eq, prefixed_eq, State.look_look]
  · rw [prefixed_eq, prefixed_eq, State.look_poised poised, State.look_poised poised']
    have settled := adjoins.settled
    have settled' := adjoins.settled'
    have failed : ∀ {d d' : Diagnostic}, d.category = d'.category → Apace tail base base'
        (.error d { s with afterBrace := false } : EStateM.Result Diagnostic State Typed)
        (.error d' { s' with afterBrace := false }) :=
      fun same => .error same ⟨adjoins.sentence, { settled with afterBrace := rfl },
        { settled' with afterBrace := rfl }, adjoins.left⟩
    rcases adjoins.heads behind poised poised' with
      ⟨none, none' | ⟨there, ahead', next'⟩⟩ |
        ⟨here, there, t, ahead, ahead', next, next', plain, on⟩
    · rw [none, none']
      exact failed rfl
    · rw [none, next']
      dsimp only
      rw [if_pos rfl]
      have same : ({ s' with afterBrace := false } : State) = s' := by rw [← settled'.afterBrace]
      rw [← same]
      exact failed rfl
    · rw [next, next']
      have other : t ≠ .sym .semicolon := by
        rintro rfl
        cases plain
      dsimp only
      rw [if_neg other, if_neg other]
      by_cases name : ∃ name, t = .word name ∧ steers name = false
      · obtain ⟨name, rfl, names⟩ := name
        rw [headed_name source inner here names, headed_name source' inner' there names,
          identifier_eq, identifier_eq, on.settled.scopes, on.settled'.scopes, scopes]
        cases findLocal name base.scopes with
        | some l => exact locals _ here there _ _ on
        | none => exact globals name names here there _ _ on
      · refine heads t (fun word same => ?_) plain here there _ _ on
        exact Bool.not_eq_false _ ▸ fun names => name ⟨word, same, names⟩

end Beneath

/-! ### Twins -/

variable {ι : Type} {c : Sides ι} {i : ι} {tail : List Lexeme} {base base' : State}

/-- What has not come behind a token that leads further in ends alike on a statement alone and on
one in front of a tail. -/
theorem Twins.beneath (plain : c.Plain i) (knowing : c.unknown i = none) (strict : ¬ c.lax i)
    (near : ∀ here there, c.near i here there) (behind : Tail tail)
    (scopes : base'.scopes = base.scopes) (loopDepth : base'.loopDepth = base.loopDepth) {b : Bool}
    (flat : b = false) {α : Type} [Renamable α] {x : Parse α} {y : ι → Parse α}
    (twins : Twins c b x y) : Beneath tail base base' x (y i) := by
  have unnamed : c.naming i = fun _ => none := plain
  induction twins with
  | done a =>
      intro s s' adjoins
      simp only [unnamed, rename_none]
      exact .ok a adjoins
  | bind _ _ first rest =>
      refine (first flat).bind fun a => ?_
      simpa only [unnamed, rename_none] using rest a flat
  | stalled => exact fun _ _ _ => .stalled rfl
  | tooDeep strict' =>
      rw [strict' i strict]
      exact .position behind fun _ _ _ _ adjoins => .error rfl adjoins
  | fail _ same =>
      dsimp only
      rw [same i plain]
      exact fun _ _ adjoins => .error rfl adjoins
  | refuse _ one =>
      exact fun s s' adjoins => .error (one _ _) (adjoins.look behind c.source (c.others i))
  | position _ rest =>
      refine .position behind fun here place => ?_
      obtain ⟨there, nears, rfl⟩ := Sides.extend (near here place)
      exact rest here there nears flat
  | glance seen _ last _ rest => exact .glance behind (last flat) fun r => rest r flat
  | take found? _ last _ _ yes no =>
      refine .taking behind (last flat) (fun t r found plain here place => ?_) (no flat)
      obtain ⟨there, nears, rfl⟩ := Sides.extend (near here place)
      exact yes t r found here there nears (by rw [flat, leads_sentential plain]; rfl)
  | operand _ _ _ heads locals globals =>
      simp only [knowing, blind]
      refine .prefixed behind scopes (fun t other plain here place => ?_) (fun binding here place => ?_)
        fun name names here place => ?_
      all_goals obtain ⟨there, nears, rfl⟩ := Sides.extend (near here place)
      · exact heads t other here there nears (by rw [flat, leads_sentential plain]; rfl)
      · simpa only [unnamed, Binding.rename_none] using locals binding here there nears flat
      · exact globals name names here there nears flat
  | requireLoop _ keyword =>
      intro s s' adjoins
      dsimp only
      rw [requireLoop_eq, requireLoop_eq, adjoins.settled.loopDepth, adjoins.settled'.loopDepth,
        loopDepth]
      split
      · exact .error rfl adjoins
      · exact .ok () adjoins
  | declaring _ _ _ _ _ no =>
      dsimp only
      refine .of_look behind c.source (c.others i) (fun s => ?_) (fun s => ?_)
        fun s s' adjoins poised poised' => ?_
      · rw [bind_completed (checkWord_eq _ _ _), bind_completed (checkWord_eq _ _ _), State.look_look]
      · rw [bind_completed (checkWord_eq _ _ _), bind_completed (checkWord_eq _ _ _), State.look_look]
      · rw [bind_completed (checkWord_eq _ _ _), bind_completed (checkWord_eq _ _ _),
          State.look_poised poised, State.look_poised poised']
        rcases adjoins.heads behind poised poised' with
          ⟨none, none' | ⟨there, ahead', next'⟩⟩ | ⟨here, there, t, ahead, ahead', next, next', plain, -⟩
        · rw [none, none']
          exact no flat s s' adjoins
        · rw [none, next']
          exact no flat s s' adjoins
        · have other : (some t == some (.word "var")) = false := by
            refine beq_eq_false_iff_ne.mpr ?_
            rintro ⟨⟩
            cases plain
          rw [next, next']
          simp only [List.head?_cons, Option.map_some, other, Bool.false_eq_true, if_false]
          exact no flat s s' adjoins
  | inside | vectorLength | otherwise | vectorAhead | inScope | inLoop | statements => cases flat

end MathScript.Parse
