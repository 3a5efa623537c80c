import MathScript.Proofs.Retelling

/-!
Declarations under other names. A name is declared where no local of its scope has it yet; a new
name is had by none, for the slot it stands for is given out only when the declaration is read.
-/

namespace MathScript.Parse

open Renamable

variable {ι : Type} {c : Sides ι} {words : ι → Nat → Option String} {low : Nat}

/-! ### A local more -/

/-- The state with one more local, in the innermost scope. -/
def State.declaring (s : State) (name : String) (kind : Kind) (writable : Bool) : State :=
  { s with
    scopes := match s.scopes with
      | [] => []
      | scope :: outer => ((name, ⟨s.frameSize, kind, writable⟩) :: scope) :: outer
    frameSize := s.frameSize + 1 }

theorem declareLocal_eq (s : State) (name : String) (kind : Kind) (writable : Bool) :
    declareLocal name kind writable s = .ok s.frameSize (s.declaring name kind writable) := rfl

section

variable {s : State} {name : String} {kind : Kind} {writable : Bool}

theorem mem_declaring {e : String × Local}
    (inside : e ∈ (s.declaring name kind writable).scopes.flatten) :
    e = (name, ⟨s.frameSize, kind, writable⟩) ∨ e ∈ s.scopes.flatten := by
  unfold State.declaring at inside
  cases scopes : s.scopes with
  | nil => simp [scopes] at inside
  | cons scope outer => simpa [scopes, or_assoc] using inside

theorem Sound.declaring (sound : Sound low s) (free : isReserved name = false) :
    Sound low (s.declaring name kind writable) where
  faultless := sound.faultless
  below := fun e inside => by
    rcases mem_declaring inside with rfl | inside
    · exact Nat.lt_succ_self _
    · exact Nat.lt_succ_of_lt (sound.below e inside)
  distinct := by
    have distinct := sound.distinct
    have below := sound.below
    unfold State.declaring
    cases scopes : s.scopes with
    | nil => exact List.nodup_nil
    | cons scope outer =>
        rw [scopes] at distinct below
        rw [List.flatten_cons, List.cons_append, List.map_cons, List.nodup_cons]
        refine ⟨fun inside => ?_, distinct⟩
        obtain ⟨e, inside, same⟩ := List.mem_map.mp inside
        exact absurd (below e inside) (by rw [same]; exact Nat.lt_irrefl _)
  usable := fun e inside above => by
    rcases mem_declaring inside with rfl | inside
    · exact free
    · exact sound.usable e inside above
  clean := sound.clean

/-- A name behind `var` is declared in front of whatever is taken behind it. -/
theorem Within.declaring {ms : List Mention} {taken : List Lexeme} (within : Within ms taken)
    (here place : Nat) {slot : Nat} (free : isReserved name = false) :
    Within (⟨here, name, some slot, true⟩ :: ms)
      ([⟨place, .ok (.word "var")⟩, ⟨here, .ok (.word name)⟩] ++ taken) where
  listed := (within.listed.cons_cons _).cons _
  introduced := fun n inside declares => by
    rcases List.mem_cons.mp inside with rfl | inside
    · exact ⟨⟨slot, rfl⟩, place, (List.prefix_append _ _).isInfix⟩
    · obtain ⟨slot', place', there⟩ := within.introduced n inside declares
      exact ⟨slot', place', there.trans (List.suffix_append _ _).isInfix⟩
  all := fun front place' back same => by
    match front with
    | [] =>
        obtain ⟨-, rfl⟩ := List.cons.inj same
        exact ⟨_, List.mem_cons_self, rfl, taken, rfl⟩
    | [l] =>
        -- The name would be `var`.
        obtain ⟨-, rest⟩ := List.cons.inj same
        cases (List.cons.inj rest).1
        cases free
    | l :: l' :: front =>
        obtain ⟨-, rest⟩ := List.cons.inj same
        obtain ⟨m, inside, declares, there⟩ :=
          within.all front place' back (List.cons.inj rest).2
        exact ⟨m, List.mem_cons_of_mem _ inside, declares, there⟩

/-- A name is taken behind `var`, and declared behind what follows it. -/
theorem Recital.declaring {m m' : State} {here place : Nat} {ahead rest : List (Nat × Token)}
    {ms : List Mention} (next : s.ahead = (place, .word "var") :: ahead)
    (looked : Scanned (s.behind (.word "var") ahead) m) (next' : m.ahead = (here, .word name) :: rest)
    (free : isReserved name = false) (recital : Recital low (m.behind (.word name) rest) ms m') :
    Recital low s (⟨here, name, some m'.frameSize, true⟩ :: ms)
      (m'.declaring name kind writable) where
  sound := recital.sound.declaring free
  frame := Nat.le_succ_of_le (looked.frameSize ▸ recital.frame)
  slots := by
    have frame : s.frameSize ≤ m'.frameSize := looked.frameSize ▸ recital.frame
    have slots := recital.slots
    rw [show (m.behind (.word name) rest).frameSize = s.frameSize from looked.frameSize] at slots
    change (m'.frameSize :: Mention.declared ms).Perm
      (List.range' s.frameSize (m'.frameSize + 1 - s.frameSize))
    rw [Nat.succ_sub frame, List.range'_1_concat, Nat.add_sub_cancel' frame]
    exact (slots.cons _).trans (List.perm_append_singleton _ _).symm
  took := by
    obtain ⟨taken, left, names⟩ := recital.took
    refine ⟨[⟨place, .ok (.word "var")⟩, ⟨here, .ok (.word name)⟩] ++ taken, ?_, ?_⟩
    · rw [State.left_ahead next, ← looked.left, State.left_ahead next', left]
      rfl
    · exact names.declaring here place free
  usable := fun n inside slot same above => by
    rcases List.mem_cons.mp inside with rfl | inside
    · exact free
    · exact recital.usable n inside slot same above

end

/-- A name is new to a scope where its new name is. -/
theorem lookup_fresh {i : ι} (variants : c.Variants) {es es' : List (String × Local)}
    (called : List.Forall₂ (Called c i) es es') {here there slot : Nat} {name word : String}
    (worded : Worded c words i (here, .word name) (there, .word word))
    (accords : words i here = c.naming i slot) (below : ∀ e ∈ es, e.2.slot < slot)
    (fresh : es.lookup name = none) : es'.lookup word = none := by
  cases worded with
  | same _ _ other =>
      rw [lookup_kept called (other name rfl) (by simp [fresh]), fresh]
  | new _ changed =>
      rw [changed] at accords
      clear fresh
      induction called with
      | nil => rfl
      | @cons e e' _ _ first _ ih =>
          have later := ih fun e inside => below e (List.mem_cons_of_mem _ inside)
          have apart : (word == e'.1) = false := by
            refine beq_eq_false_iff_ne.mpr ?_
            rintro rfl
            cases first with
            | same _ other => exact other slot accords.symm
            | new changed' =>
                have same := variants.distinct i _ _ _ changed' accords.symm
                exact absurd (below _ List.mem_cons_self) (by simp [same])
          obtain ⟨_, _⟩ := e'
          rw [List.lookup_cons]
          simp only [apart]
          exact later

/-- A name may be declared that is usable and that no local of its scope has. -/
def Declarable (name : String) (s : State) : Prop :=
  isIdentifier name = true ∧ isReserved name = false ∧
    ∀ scope outer, s.scopes = scope :: outer → scope.lookup name = none

section

variable {i : ι} {s s' : State} {here there slot : Nat} {name word : String} (variants : c.Variants)
variable (worded : Worded c words i (here, .word name) (there, .word word))

include worded

/-- On a side without new names a name stays what it is. -/
theorem Worded.unchanged (plain : c.Plain i) (accords : words i here = c.naming i slot) :
    word = name := by
  rw [Sides.Plain] at plain
  rw [plain] at accords
  cases worded with
  | same => rfl
  | new _ changed => rw [accords] at changed; cases changed

theorem Copy.declaring (copy : Copy c words i s s')
    (accords : words i here = c.naming i s.frameSize) (kind : Kind) (writable : Bool) :
    Copy c words i (s.declaring name kind writable) (s'.declaring word kind writable) := by
  have called : Called c i (name, ⟨s.frameSize, kind, writable⟩)
      (word, ⟨s.frameSize, kind, writable⟩) := by
    cases worded with
    | same _ kept other => exact .same (accords.symm.trans (kept name rfl)) (other name rfl)
    | new _ changed => exact .new (accords.symm.trans changed)
  refine { copy with scopes := ?_, frameSize := congrArg (· + 1) copy.frameSize }
  have scopes := copy.scopes
  unfold State.declaring
  rw [copy.frameSize]
  generalize s.scopes = inner, s'.scopes = inner' at scopes
  cases scopes with
  | nil => exact .nil
  | cons first outer => exact .cons (.cons called first) outer

include variants

/-- A name that may be declared may be so under its new name. -/
theorem Declarable.copy (copy : Copy c words i s s') (sound : Sound low s)
    (accords : words i here = c.naming i slot) (later : s.frameSize ≤ slot)
    (declarable : Declarable name s) : Declarable word s' := by
  obtain ⟨identifier, free, fresh⟩ := declarable
  have usable : isIdentifier word = true ∧ isReserved word = false := by
    cases worded with
    | same => exact ⟨identifier, free⟩
    | new _ changed => exact variants.usable i slot word (accords.symm.trans changed)
  refine ⟨usable.1, usable.2, fun scope' outer' scopes' => ?_⟩
  have scopes := copy.scopes
  rw [scopes'] at scopes
  obtain ⟨scope, outer, called, -, scopes⟩ := List.forall₂_cons_right_iff.mp scopes
  refine lookup_fresh variants called worded accords (fun e inside => ?_) (fresh scope outer scopes)
  refine Nat.lt_of_lt_of_le (sound.below e ?_) later
  rw [scopes, List.flatten_cons]
  exact List.mem_append_left _ inside

end

/-- What is read of a declaration behind its name. -/
def declares (source : Source) (expression : Parse Typed) (name : String) (constant : Bool)
    (place : Nat) : Parse Typed := do
  let (shape, parts) ← initialValue source expression name constant place
  let slot ← declareLocal name shape.kind !constant
  return scalarNode (.declare slot shape parts)

section

variable {source : Source} {expression : Parse Typed} {constant : Bool} {s m : State}
variable {place here : Nat} {t : Token} {ahead rest : List (Nat × Token)} {name : String}

theorem declaration_eq (poised : s.Poised) (next : s.ahead = (place, t) :: ahead)
    (look : (s.behind t ahead).look source 1 = m)
    (next' : m.ahead = (here, .word name) :: rest) :
    declaration source expression constant s =
      (if !isIdentifier name || isReserved name then fail source here (.unusableName name)
      else do
        if ← declaredHere name then fail source here (.redeclared name)
        else declares source expression name constant here : Parse Typed)
        (m.behind (.word name) rest) := by
  have poised' : m.Poised := look ▸ State.poised_look _
  unfold declaration
  rw [bind_completed (advance_some source (by rwa [State.look_poised poised])),
    State.look_poised poised, bind_completed (position_eq source _), look,
    State.front_ahead next', bind_completed (advance_some source (by
      rwa [State.look_poised poised'])), State.look_poised poised']
  rfl

theorem declaredHere_eq (name : String) (s : State) : declaredHere name s =
    .ok (match s.scopes with
      | [] => false
      | scope :: _ => (scope.lookup name).isSome) s := by
  change (match s.scopes with
    | [] => (pure false : Parse Bool)
    | scope :: _ => pure (scope.lookup name).isSome) s = _
  cases s.scopes <;> rfl

theorem declaration_declarable (poised : s.Poised) (next : s.ahead = (place, t) :: ahead)
    (look : (s.behind t ahead).look source 1 = m) (next' : m.ahead = (here, .word name) :: rest)
    (declarable : Declarable name m) : declaration source expression constant s =
      declares source expression name constant here (m.behind (.word name) rest) := by
  obtain ⟨identifier, free, fresh⟩ := declarable
  have absent : declaredHere name (m.behind (.word name) rest) =
      .ok false (m.behind (.word name) rest) := by
    rw [declaredHere_eq]
    change EStateM.Result.ok (match m.scopes with
      | [] => false
      | scope :: _ => (scope.lookup name).isSome) _ = _
    cases scopes : m.scopes with
    | nil => rfl
    | cons scope outer => simp [fresh scope outer scopes]
  rw [declaration_eq poised next look next', identifier, free]
  change ((declaredHere name >>= fun declared => _) : Parse Typed) _ = _
  rw [bind_completed absent]
  rfl

theorem declares_eq {shape : Shape} {parts : List Tree}
    (read : initialValue source expression name constant here s = .ok (shape, parts) m) :
    declares source expression name constant here s =
      .ok (scalarNode (.declare m.frameSize shape parts))
        (m.declaring name shape.kind !constant) := by
  rw [declares, bind_completed read]
  rfl

/-- A declaration that is read has a name that may be declared. -/
theorem declaration_ok {a : Typed} {s₁ : State} (poised : s.Poised)
    (next : s.ahead = (place, t) :: ahead) (look : (s.behind t ahead).look source 1 = m)
    (done : declaration source expression constant s = .ok a s₁) :
    ∃ here name rest, m.ahead = (here, .word name) :: rest ∧ Declarable name m := by
  have poised' : m.Poised := look ▸ State.poised_look _
  cases next' : m.ahead with
  | nil =>
      rw [declaration, bind_completed (advance_some source (by rwa [State.look_poised poised])),
        State.look_poised poised, bind_completed (position_eq source _), look,
        bind_completed (advance_none source (by rwa [State.look_poised poised']))] at done
      cases done
  | cons first rest =>
      obtain ⟨here, t'⟩ := first
      cases t' with
      | word name =>
          refine ⟨here, name, rest, rfl, ?_⟩
          rw [declaration_eq poised next look next'] at done
          cases unusable : !isIdentifier name || isReserved name with
          | true =>
              rw [if_pos unusable] at done
              cases done
          | false =>
              rw [if_neg (Bool.eq_false_iff.mp unusable)] at done
              simp only [Bool.or_eq_false_iff, Bool.not_eq_false'] at unusable
              refine ⟨unusable.1, unusable.2, fun scope outer scopes => ?_⟩
              have seen := declaredHere_eq name (m.behind (.word name) rest)
              rw [show (m.behind (.word name) rest).scopes = scope :: outer from scopes] at seen
              rw [bind_completed seen] at done
              cases found : scope.lookup name with
              | none => rfl
              | some l =>
                  simp only [found, Option.isSome_some, if_true] at done
                  cases done
      | _ =>
          rw [declaration, bind_completed (advance_some source (by rwa [State.look_poised poised])),
            State.look_poised poised, bind_completed (position_eq source _), look,
            bind_completed (advance_some source (by rwa [State.look_poised poised']))] at done
          cases done

end

/-- A declaration, if `var` is ahead. -/
def guarded (source : Source) (expression : Parse Typed) (constant : Bool) : Parse Typed := do
  if ← checkWord source "var" then declaration source expression constant else stalled source

/-- Where `var` was seen, it is seen again. -/
theorem guarded_bind {α : Type} (source : Source) (expression : Parse Typed) (constant : Bool)
    (f : Typed → Parse α) (x : Parse α) :
    (do if ← checkWord source "var" then declaration source expression constant >>= f else x) = (do
      if ← checkWord source "var" then guarded source expression constant >>= f else x) := by
  funext s
  rw [bind_completed (checkWord_eq source _ s), bind_completed (checkWord_eq source _ s)]
  cases there : (s.look source 1).ahead.head?.map Prod.snd == some (.word "var") with
  | false => rfl
  | true =>
      have again : guarded source expression constant (s.look source 1) =
          declaration source expression constant (s.look source 1) := by
        rw [guarded, bind_completed (checkWord_eq source _ _), State.look_look, there]
        rfl
      change EStateM.bind _ _ _ = EStateM.bind _ _ _
      rw [EStateM.bind, EStateM.bind, again]

/-- What a side makes of the value of a declaration, it makes of the declaration. -/
theorem Told.declares {source : Source} {expression : Parse Typed} {constant : Bool} {i : ι}
    {here there : Nat} {name word : String} {m s' : State} {ms : List Mention} {shape : Shape}
    {parts : List Tree} (worded : Worded c words i (here, .word name) (there, .word word))
    (accords : words i here = c.naming i m.frameSize)
    (told : Told c words i ms (rename (c.naming i) (shape, parts)) m
      (initialValue source expression word constant there s')) :
    Told c words i ms (rename (c.naming i) (scalarNode (.declare m.frameSize shape parts)))
      (m.declaring name shape.kind !constant)
      (Parse.declares source expression word constant there s') := by
  cases read : initialValue source expression word constant there s' with
  | error d m' =>
      rw [read] at told
      rw [Parse.declares, bind_stopped read]
      cases told with
      | hit hit => exact .hit hit trivial
  | ok value m' =>
      rw [read] at told
      obtain ⟨shape', parts'⟩ := value
      rw [declares_eq read]
      cases told with
      | hit hit refused => exact .hit hit refused
      | spared spared copy =>
          have declared := copy.declaring worded accords shape.kind !constant
          have node : rename (c.naming i) (scalarNode (.declare m.frameSize shape parts)) =
              scalarNode (.declare m.frameSize shape (parts.map (Tree.rename (c.naming i)))) := by
            simp [scalarNode, Tree.renameList_eq]
          rw [copy.frameSize, node]
          exact .spared spared declared

variable {α : Type} [Renamable α]

namespace Faithful

theorem tells_declaration (variants : c.Variants) {e : Parse Typed} {es : ι → Parse Typed}
    {constant : Bool}
    (values : ∀ name (names : ι → String), (∀ i, c.Plain i → names i = name) → ∀ here there,
      c.Near here there → Faithful c words low (initialValue c.source e name constant here) fun i =>
        initialValue (c.others i) (es i) (names i) constant (there i))
    {s s₁ : State} {a : Typed} {place : Nat} {ahead : List (Nat × Token)} (sound : Sound low s)
    (poised : s.Poised) (next : s.ahead = (place, .word "var") :: ahead)
    (done : declaration c.source e constant s = .ok a s₁) (clean : s₁.diagnostics = #[])
    {s' : ι → State} {alive : ι → Prop}
    (copies : ∀ i, alive i → Copy c words i s (s' i) ∧ (s' i).Poised) :
    Tells c words low s a s₁ (fun i => declaration (c.others i) (es i) constant) s' alive := by
  classical
  obtain ⟨m, look⟩ : ∃ m, (s.behind (.word "var") ahead).look c.source 1 = m := ⟨_, rfl⟩
  have sound' := sound.behind (.word "var") ahead
  have scanned := sound'.scanned c.source 1
  rw [look] at scanned
  obtain ⟨here, name, rest, next', declarable⟩ := declaration_ok poised next look done
  rw [declaration_declarable poised next look next' declarable] at done
  have soundM := scanned.sound sound'
  have free : steers name = false := Bool.eq_false_iff.mpr fun steering => by
    have usable := declarable.2.1
    rw [reserved_of_steers steering] at usable
    cases usable
  -- The names on the sides that are still the same text.
  obtain ⟨_, t', ahead', -, heads⟩ := Copy.heads (fun i live => (copies i live).1) next
  have copies' := fun i live => (heads i live).2.2.look 1
  rw [look] at copies'
  obtain ⟨there, t'', rest', nears, heads'⟩ := Copy.heads copies' next'
  obtain ⟨word, word_eq⟩ : ∃ word : ι → String, ∀ i, alive i → t'' i = .word (word i) := by
    refine ⟨fun i => (t'' i).wordOr name, fun i live => ?_⟩
    obtain ⟨word, same, -⟩ := (heads' i live).2.1.name free
    simp only [same, Token.wordOr_word]
  -- What is read behind the name.
  cases read : initialValue c.source e name constant here (m.behind (.word name) rest) with
  | error d m₁ =>
      rw [declares, bind_stopped read] at done
      cases done
  | ok value m₁ =>
      obtain ⟨shape, parts⟩ := value
      rw [declares_eq read] at done
      cases done
      let known := fun i => alive i ∧ words i here = c.naming i m₁.frameSize
      have worded : ∀ i, alive i → Worded c words i (here, .word name) (there i, .word (word i)) :=
        fun i live => word_eq i live ▸ (heads' i live).2.1
      have named : ∀ i, c.Plain i → (if known i then word i else name) = name := by
        intro i plain
        split
        next on => exact (worded i on.1).unchanged plain on.2
        · rfl
      obtain ⟨ms, recital, told⟩ := (values name _ named here there nears).tells _ _ m₁
        (soundM.behind (.word name) rest) read clean _ known fun i on => (heads' i on.1).2.2
      refine ⟨_, .declaring next scanned next' declarable.2.1 recital, fun i live accords => ?_⟩
      rw [← List.singleton_append, accords_append] at accords
      obtain ⟨accords, accords'⟩ := accords
      have on : known i := ⟨live, accords _ (List.mem_singleton_self _)⟩
      have spared : ¬ Hit c i [⟨here, name, some m₁.frameSize, true⟩] := by
        rintro ⟨n, inside, used, -⟩
        obtain rfl := List.mem_singleton.mp inside
        cases used
      have told := (told i on accords').behind spared
      dsimp only at told
      rw [if_pos on] at told
      obtain ⟨nextI, wordedI, -⟩ := heads i live
      obtain ⟨nextI', -, -⟩ := heads' i live
      have copyI := copies' i live
      have same := wordedI.plain (t := .word "var") (by rintro _ ⟨⟩; rfl)
      rw [same] at nextI nextI' copyI told
      rw [word_eq i live] at nextI' told
      have declarableI := declarable.copy variants (worded i live) copyI soundM on.2 recital.frame
      dsimp only
      rw [declaration_declarable (copies i live).2 nextI rfl nextI' declarableI]
      -- The side goes on with its own name.
      exact told.declares (worded i live) on.2

theorem guarded (variants : c.Variants) {e : Parse Typed} {es : ι → Parse Typed} {constant : Bool}
    (values : ∀ name (names : ι → String), (∀ i, c.Plain i → names i = name) → ∀ here there,
      c.Near here there → Faithful c words low (initialValue c.source e name constant here) fun i =>
        initialValue (c.others i) (es i) (names i) constant (there i)) :
    Faithful c words low (guarded c.source e constant) fun i =>
      guarded (c.others i) (es i) constant := by
  refine of_look ?_ (fun i unknown => ?_) (fun s => ?_) (fun i s => ?_) ?_
  · refine (onward_checkWord _).bind fun _ => onward_ite (onward_declaration fun name here => ?_)
      (onward_throw _)
    obtain ⟨there, near⟩ := c.toward here
    exact (values name (fun _ => name) (fun _ _ => rfl) here there near).first
  · refine (onward_checkWord _).bind fun _ => onward_ite (onward_declaration fun name place => ?_)
      (onward_throw _)
    obtain ⟨here, there, near, rfl⟩ := c.back i place
    exact (values name (fun _ => name) (fun _ _ => rfl) here there near).second i unknown
  · rw [Parse.guarded, bind_completed (checkWord_eq _ _ _), bind_completed (checkWord_eq _ _ _),
      State.look_look]
  · rw [Parse.guarded, bind_completed (checkWord_eq _ _ _), bind_completed (checkWord_eq _ _ _),
      State.look_look]
  · intro s a s₁ sound poised done clean s' alive copies
    rw [Parse.guarded, bind_completed (checkWord_eq _ _ _), State.look_poised poised] at done
    cases next : s.ahead with
    | nil =>
        rw [next] at done
        cases done
    | cons first ahead =>
        obtain ⟨place, t⟩ := first
        rw [next] at done
        by_cases var : t = .word "var"
        · subst var
          refine (tells_declaration variants values sound poised next done clean copies).after
            (.of_turn sound rfl rfl) fun i live => ?_
          obtain ⟨copy, poised'⟩ := copies i live
          obtain ⟨there, t', ahead', next', worded, -⟩ := copy.head next
          have same := worded.plain (t := .word "var") (by rintro _ ⟨⟩; rfl)
          rw [Parse.guarded, bind_completed (checkWord_eq _ _ _), State.look_poised poised', next',
            same]
          rfl
        · have other : (some t == some (.word "var")) = false := by simpa using var
          simp only [List.head?_cons, Option.map_some, other, Bool.false_eq_true, if_false] at done
          cases done

end Faithful

/-! ### Twins -/

theorem unclean_tooDeep {source : Source} : Unclean (tooDeep source) := by
  rintro s a s₁ done
  rw [tooDeep, bind_completed (position_eq _ _)] at done
  cases done

/-- A parser tells by its mentions what it is on the sides. -/
theorem Twins.faithful {b : Bool} {x : Parse α} {y : ι → Parse α} (variants : c.Variants)
    (twins : Twins c b x y) : Faithful c words low x y := by
  induction twins with
  | done a => exact .done a
  | bind _ _ first rest => exact first.bind variants rest
  | inside _ ih => exact ih
  | stalled _ _ ih => exact .of_unclean (onward_throw _) ih.second nofun
  | tooDeep strict =>
      have deep : ∀ source, Onward source (Parse.tooDeep source) := fun source =>
        onward_position.bind fun _ => onward_throw _
      refine .of_unclean (deep _) (fun i unknown => ?_) unclean_tooDeep
      rw [strict i (variants.blind i unknown).2.1]
      exact deep _
  | fail => exact .of_unclean (onward_throw _) (fun _ _ => onward_throw _) nofun
  | refuse =>
      refine .of_unclean (onward_peek.bind fun _ => onward_throw _)
        (fun _ _ => onward_peek.bind fun _ => onward_throw _) (.behind (fun _ => ?_) _)
      exact nofun
  | position _ rest => exact .position variants rest
  | glance seen names _ _ rest => exact .glance seen names rest
  | take found? names _ _ _ yes no => exact .taking found? names yes no
  | operand _ _ _ plain locals globals => exact .operand variants plain locals globals
  | requireLoop near keyword => exact .requireLoop _ _ keyword
  | vectorLength near size => exact .vectorLength variants size _ _
  | otherwise _ ih => exact .otherwise variants ih
  | vectorAhead => exact .vectorAhead
  | inScope _ ih => exact ih.inScope
  | inLoop _ ih => exact ih.inLoop
  | declaring _ _ _ values yes no =>
      simp only [guarded_bind]
      exact .checkWord rfl fun r => .ite (p := r = true)
        ((Faithful.guarded variants values).bind variants yes) no
  | statements _ rounds stop items ih => exact .statements variants ih rounds stop items

end MathScript.Parse
