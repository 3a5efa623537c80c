import MathScript.Proofs.Telling

/-!
What is read of a text under other names, move by move, and from it what is read by any parser. In a
parse that puts no diagnostic down no statement fails, so each of its lists goes on from one
statement to the next, on every side that has not been refused.
-/

namespace MathScript.Parse

open Renamable

variable {ι : Type} {c : Sides ι} {words : ι → Nat → Option String} {low : Nat}
variable {α β : Type} [Renamable α] [Renamable β]

/-- What was seen ahead is there still, unless nothing more is kept. -/
theorem State.ahead_pull (source : Source) (s : State) (ls : List Lexeme) :
    s.ahead <+: (s.pull source ls).ahead ∨ (s.pull source ls).ahead = [] := by
  induction ls generalizing s with
  | nil => exact .inl List.prefix_rfl
  | cons l ls ih =>
      rw [State.pull]
      cases l.content with
      | ok t => exact .inl (List.prefix_append _ _)
      | error cause =>
          obtain ⟨kept, -⟩ := s.record_ahead source.limits.errors
            (Diagnostic.locate source.text l.position cause)
          dsimp only
          split
          next full =>
            rw [if_pos full] at kept
            exact .inr kept.2
          next more =>
            rw [if_neg more] at kept
            rw [← kept]
            exact ih _

theorem State.ahead_look_two (source : Source) {s : State} (poised : s.Poised) :
    s.ahead <+: (s.look source 2).ahead ∨ (s.look source 2).ahead = [] := by
  rw [State.look]
  simp only [State.look_poised poised]
  split
  · exact s.ahead_pull source s.rest
  · exact .inl List.prefix_rfl

/-- A token is taken that was seen ahead. -/
def passing (source : Source) (t : Token) (x : Parse α) : Parse α :=
  taking source (fun next => if next = t then some () else none) (fun _ _ => x) (stalled source)

omit [Renamable α] in
theorem passing_eq {source : Source} {t : Token} {x : Parse α} {s : State} {here : Nat}
    {ahead : List (Nat × Token)} (next : s.ahead = (here, t) :: ahead) :
    passing source t x s = (advance source >>= fun _ => x) s := by
  have poised : s.Poised := fun none => by rw [next] at none; cases none
  rw [bind_completed (advance_some source (by rwa [State.look_poised poised])), passing, taking,
    State.look_poised poised, next]
  dsimp only
  rw [if_pos rfl]

/-- Behind a `;` that was seen with an `else` behind it, both are passed. -/
theorem otherwise_eq (source : Source) (e : Parse Typed) : otherwise? source e = (do
    if ← eatWord source "else" then return some (← e)
    else if ← check source .semicolon then
      if (← peekSecond source) == some (.word "else") then
        passing source (.sym .semicolon) (passing source (.word "else") (do return some (← e)))
      else return none
    else return none) := by
  unfold otherwise?
  congr 1
  funext taken
  congr 1
  funext s
  rw [bind_completed (check_eq source _ s), bind_completed (check_eq source _ s)]
  have poised : (s.look source 1).Poised := s.poised_look
  generalize s.look source 1 = m at poised
  cases semicolon : m.ahead.head?.map Prod.snd == some (.sym .semicolon) with
  | false => rfl
  | true =>
      rw [if_pos rfl, if_pos rfl]
      have second : peekSecond source m =
          .ok (((m.look source 2).ahead.drop 1).head?.map Prod.snd) (m.look source 2) := rfl
      rw [bind_completed second, bind_completed second]
      cases behind : ((m.look source 2).ahead.drop 1).head?.map Prod.snd ==
          some (.word "else") with
      | false => rfl
      | true =>
          rw [if_pos rfl, if_pos rfl]
          obtain ⟨⟨here, t⟩, first, rfl⟩ := Option.map_eq_some_iff.mp (beq_iff_eq.mp semicolon)
          obtain ⟨⟨there, t'⟩, next, rfl⟩ := Option.map_eq_some_iff.mp (beq_iff_eq.mp behind)
          obtain ⟨rest, ahead⟩ := List.head?_eq_some_iff.mp first
          have seen : ∃ ahead', (m.look source 2).ahead =
              (here, .sym .semicolon) :: (there, .word "else") :: ahead' := by
            rcases State.ahead_look_two source poised with ⟨more, same⟩ | none
            · rw [ahead] at same
              rw [← same] at next ⊢
              obtain ⟨ahead', same'⟩ := List.head?_eq_some_iff.mp next
              exact ⟨ahead', congrArg _ same'⟩
            · rw [none] at next
              cases next
          obtain ⟨ahead', next⟩ := seen
          have poised' : (m.look source 2).Poised := fun none => by rw [next] at none; cases none
          have taken : advance source (m.look source 2) = .ok (some (.sym .semicolon))
              ((m.look source 2).behind (.sym .semicolon) ((there, .word "else") :: ahead')) := by
            rw [advance_some source (by rwa [State.look_poised poised']),
              State.look_poised poised']
          rw [passing_eq next, bind_completed taken, bind_completed taken]
          exact (passing_eq rfl).symm

namespace Faithful

/-! ### Tokens passed over -/

theorem passing {t : Token} (plain : ∀ name, t = .word name → isReserved name = true)
    (other : t ≠ .word "var") {x : Parse α} {y : ι → Parse α} (rest : Faithful c words low x y) :
    Faithful c words low (passing c.source t x) fun i => passing (c.others i) t (y i) := by
  refine taking _ (fun name named => if_neg ?_) (fun _ _ _ _ _ _ => rest)
    (of_unclean (onward_throw _) (fun _ _ => onward_throw _) nofun)
  rintro rfl
  rcases named with free | rfl
  · rw [plain name rfl] at free
    cases free
  · exact other rfl

/-- What is seen of the token behind the next one is not which name it is. -/
theorem glanceSecond {γ : Type} (seen : Option Token → γ) {f : γ → Parse α} {g : ι → γ → Parse α}
    (names : ∀ name name', isReserved name = false → isReserved name' = false →
      seen (some (.word name)) = seen (some (.word name')))
    (rest : ∀ r, Faithful c words low (f r) fun i => g i r) :
    Faithful c words low (peekSecond c.source >>= fun t => f (seen t)) fun i =>
      peekSecond (c.others i) >>= fun t => g i (seen t) := by
  have second : ∀ source, Onward source (peekSecond source) := fun source =>
    onward_stepped fun s => ⟨false, s.stepped_look_two⟩
  refine ⟨(second _).bind fun t => (rest (seen t)).first,
    fun i unknown => (second _).bind fun t => (rest (seen t)).second i unknown, ?_⟩
  intro s a s₁ sound done clean s' alive copies
  have looked := sound.look c.source 2
  refine ((rest _).tells _ a s₁ looked.sound done clean
    (fun i => (s' i).look (c.others i) 2) alive fun i live => (copies i live).look 2).after looked
    fun i live => ?_
  have aheads := List.forall₂_drop 1 ((copies i live).look 2).ahead
  change g i (seen ((((s' i).look (c.others i) 2).ahead.drop 1).head?.map Prod.snd)) _ = _
  generalize (s.look c.source 2).ahead.drop 1 = ahead, ((s' i).look (c.others i) 2).ahead.drop 1 =
    ahead' at aheads
  cases aheads with
  | nil => rfl
  | cons worded _ =>
      exact congrArg (g i · _) (worded.seen (fun t => seen (some t)) names)

theorem checkWord {word : String} (reserved : isReserved word = true) {f : Bool → Parse α}
    {g : ι → Bool → Parse α} (rest : ∀ r, Faithful c words low (f r) fun i => g i r) :
    Faithful c words low (checkWord c.source word >>= f) fun i =>
      checkWord (c.others i) word >>= g i := by
  refine glance (· == some (.word word)) (fun name name' free free' => ?_) rest
  have other : ∀ name, isReserved name = false →
      (some (Token.word name) == some (.word word)) = false := by
    rintro name free
    refine beq_eq_false_iff_ne.mpr ?_
    rintro ⟨⟩
    rw [reserved] at free
    cases free
  rw [other name free, other name' free']

theorem check (sym : Sym) {f : Bool → Parse α} {g : ι → Bool → Parse α}
    (rest : ∀ r, Faithful c words low (f r) fun i => g i r) :
    Faithful c words low (check c.source sym >>= f) fun i => check (c.others i) sym >>= g i :=
  glance (· == some (.sym sym)) (fun _ _ _ _ => rfl) rest

theorem ite {p : Prop} [Decidable p] {x x' : Parse α} {y y' : ι → Parse α}
    (yes : Faithful c words low x y) (no : Faithful c words low x' y') :
    Faithful c words low (if p then x else x') fun i => if p then y i else y' i := by
  by_cases holds : p
  · simpa only [holds, if_true] using yes
  · simpa only [holds, if_false] using no

theorem eatWord {word : String} (reserved : isReserved word = true) (other : word ≠ "var")
    {x x' : Parse α} {y y' : ι → Parse α} (yes : Faithful c words low x y) (no : Faithful c words low x' y') :
    Faithful c words low (do if ← eatWord c.source word then x else x')
      (fun i => do if ← eatWord (c.others i) word then y i else y' i) := by
  simp only [eatWord_bind]
  refine taking _ (fun name free => if_neg ?_) (fun _ _ _ _ _ _ => yes) no
  rintro ⟨⟩
  exact free.elim (fun free => by rw [reserved] at free; cases free) other

theorem eat (sym : Sym) {x x' : Parse α} {y y' : ι → Parse α} (yes : Faithful c words low x y)
    (no : Faithful c words low x' y') :
    Faithful c words low (do if ← eat c.source sym then x else x')
      (fun i => do if ← eat (c.others i) sym then y i else y' i) := by
  simp only [eat_bind]
  exact taking _ (fun _ _ => rfl) (fun _ _ _ _ _ _ => yes) no

/-- The branch behind `else`. -/
theorem otherwise (variants : c.Variants) {e : Parse Typed} {es : ι → Parse Typed}
    (reads : Faithful c words low e es) :
    Faithful c words low (otherwise? c.source e) fun i => otherwise? (c.others i) (es i) := by
  have read : Faithful c words low (do return some (← e)) fun i => do return some (← es i) :=
    reads.bind variants fun node => done (some node)
  have none' : Faithful c words low (pure (none : Option Typed)) fun _ => pure none :=
    done (none : Option Typed)
  simp only [otherwise_eq]
  refine eatWord rfl (by decide) read <| check .semicolon fun r => ite (p := r = true) ?_ none'
  refine glanceSecond (· == some (.word "else")) (fun name name' free free' => ?_) fun r =>
    ite (p := r = true) ((read.passing (by rintro _ ⟨⟩; rfl) (by decide)).passing
      (by rintro _ ⟨⟩) (by decide)) none'
  have other : ∀ name, isReserved name = false →
      (some (Token.word name) == some (.word "else")) = false := by
    rintro name free
    refine beq_eq_false_iff_ne.mpr ?_
    rintro ⟨⟩
    cases free
  rw [other name free, other name' free']

/-! ### Looking far ahead -/

omit [Renamable α] in
theorem searchAhead_eq {i : ι} {s s' : State} (copy : Copy c words i s s') (depth : Nat) :
    searchAhead depth s'.ahead = searchAhead depth s.ahead := by
  have aheads := copy.ahead
  generalize s.ahead = ahead, s'.ahead = ahead' at aheads
  induction aheads generalizing depth with
  | nil => rfl
  | @cons next next' _ _ worded _ ih =>
      obtain ⟨here, t⟩ := next
      obtain ⟨there, t'⟩ := next'
      have verdicts := worded.seen (verdict? depth) fun _ _ _ _ => rfl
      have depths := worded.seen (depthAfter depth) fun _ _ _ _ => rfl
      dsimp only at verdicts depths
      simp only [searchAhead, verdicts, depths]
      cases verdict? depth t with
      | some b => rfl
      | none => exact ih _

/-- Where there are no faults, what is passed is looked at. -/
theorem scanned_searchRest (source : Source) (s : State) (seen : List (Nat × Token)) (depth : Nat)
    {ls : List Lexeme} (faultless : ∀ l ∈ ls, ∃ t, l.content = .ok t) :
    Scanned { s with ahead := s.ahead ++ seen.reverse, rest := ls }
      (searchRest source s seen depth ls).2 := by
  induction ls generalizing seen depth with
  | nil => exact .refl _
  | cons l ls ih =>
      obtain ⟨here, content⟩ := l
      obtain ⟨t, rfl : content = .ok t⟩ := faultless _ List.mem_cons_self
      have look : Scanned { s with
          ahead := s.ahead ++ seen.reverse
          rest := ⟨here, .ok t⟩ :: ls } { s with
          ahead := s.ahead ++ ((here, t) :: seen).reverse
          rest := ls } :=
        ⟨by simp [State.left], rfl, rfl, rfl, rfl, List.suffix_cons _ _, rfl⟩
      simp only [searchRest]
      cases verdict? depth t with
      | some b => exact look
      | none => exact look.trans (ih _ _ fun l inside => faultless l (List.mem_cons_of_mem _ inside))

theorem recital_search {source : Source} {s : State} (sound : Sound low s) :
    Recital low s [] (search source s).2 := by
  unfold search
  cases searchAhead 0 s.ahead with
  | error b => exact .of_turn sound rfl rfl
  | ok depth =>
      have looked := scanned_searchRest source s [] depth sound.faultless
      rw [List.reverse_nil, List.append_nil] at looked
      exact looked.recital sound

omit [Renamable α] in
theorem copy_searchRest {i : ι} {s s' : State} (copy : Copy c words i s s')
    {seen seen' : List (Nat × Token)} (seens : List.Forall₂ (Worded c words i) seen seen')
    (depth : Nat) {ls ls' : List Lexeme} (given : List.Forall₂ (WordedLexeme c words i) ls ls') :
    (searchRest (c.others i) s' seen' depth ls').1 = (searchRest c.source s seen depth ls).1 ∧
      Copy c words i (searchRest c.source s seen depth ls).2
        (searchRest (c.others i) s' seen' depth ls').2 := by
  have looked : ∀ {seen seen' : List (Nat × Token)}, List.Forall₂ (Worded c words i) seen seen' →
      List.Forall₂ (Worded c words i) (s.ahead ++ seen.reverse) (s'.ahead ++ seen'.reverse) :=
    fun seens => List.rel_append copy.ahead (List.rel_reverse seens)
  induction given generalizing seen seen' depth with
  | nil => exact ⟨rfl, { copy with ahead := looked seens, rest := .nil }⟩
  | @cons l l' rest rest' same given ih =>
      obtain ⟨worded⟩ := same
      have verdicts := worded.seen (verdict? depth) fun _ _ _ _ => rfl
      have depths := worded.seen (depthAfter depth) fun _ _ _ _ => rfl
      dsimp only at verdicts depths
      simp only [searchRest, verdicts, depths]
      cases verdict? depth _ with
      | some b => exact ⟨rfl, { copy with ahead := looked (.cons worded seens), rest := given }⟩
      | none => exact ih (.cons worded seens) _

theorem vectorAhead :
    Faithful c words low (vectorAhead c.source) fun i => vectorAhead (c.others i) := by
  have searching : Faithful c words low (modifyGet (search c.source) : Parse Bool) fun i =>
      modifyGet (search (c.others i)) := by
    refine ⟨onward_search, fun i _ => onward_search, fun s a s₁ sound done _ s' alive copies => ?_⟩
    obtain ⟨rfl, rfl⟩ : (search c.source s).1 = a ∧ (search c.source s).2 = s₁ := by
      cases done
      exact ⟨rfl, rfl⟩
    refine ⟨[], recital_search sound, fun i live _ => ?_⟩
    have copy := copies i live
    have same : (search (c.others i) (s' i)).1 = (search c.source s).1 ∧
        Copy c words i (search c.source s).2 (search (c.others i) (s' i)).2 := by
      unfold search
      rw [searchAhead_eq copy]
      cases searchAhead 0 s.ahead with
      | error b => exact ⟨rfl, copy⟩
      | ok depth => exact copy_searchRest copy .nil depth copy.rest
    change Told c words i [] _ _ (.ok (search (c.others i) (s' i)).1 _)
    rw [same.1]
    exact .spared not_hit_nil same.2
  have told : ∀ b : Bool, Faithful c words low (pure b) fun _ => pure b := done
  exact checkWord rfl fun _ => ite (told false) <| checkWord rfl fun _ => ite (told false) searching

/-! ### Scopes and loops -/

/-- A part that is run in a state changed before it and behind it. -/
theorem within {x x' : Parse α} {y y' : ι → Parse α} (part : Faithful c words low x y)
    (first : Onward c.source x') (second : ∀ i, c.unknown i ≠ none → Onward (c.others i) (y' i))
    {before after : State → State} (run : ∀ s, x' s = leaving after (x (before s)))
    (run' : ∀ i s, y' i s = leaving after (y i (before s)))
    (enters : ∀ s, Sound low s → Recital low s [] (before s))
    (leaves : ∀ s, Sound low s → Recital low s [] (after s))
    (into : ∀ i s s', Copy c words i s s' → Copy c words i (before s) (before s'))
    (out : ∀ i s s', Copy c words i s s' → Copy c words i (after s) (after s'))
    (diagnostics : ∀ s, (after s).diagnostics = s.diagnostics) : Faithful c words low x' y' where
  first := first
  second := second
  tells := fun s a s₁ sound done clean s' alive copies => by
    have entered := enters s sound
    rw [run] at done
    cases ended : x (before s) with
    | error d m =>
        rw [ended] at done
        cases done
    | ok b m =>
        rw [ended] at done
        cases done
        obtain ⟨ms, recital, told⟩ := part.tells _ a m entered.sound ended
          (diagnostics m ▸ clean) (fun i => before (s' i)) alive fun i live => into i _ _ (copies i live)
        refine ⟨ms, ?_, fun i live accords => ?_⟩
        · simpa using (entered.trans recital).trans (leaves m recital.sound)
        · have told := told i live accords
          rw [run']
          generalize y i (before (s' i)) = r at told
          cases told with
          | hit hit refused =>
              refine .hit hit ?_
              cases r with
              | ok b m' => exact fun clean' => refused (diagnostics m' ▸ clean')
              | error d m' => trivial
          | spared spared copy => exact .spared spared (out i _ _ copy)

theorem inScope {x : Parse α} {y : ι → Parse α} (part : Faithful c words low x y) :
    Faithful c words low (inScope x) fun i => inScope (y i) := by
  refine within part part.first.inScope (fun i unknown => (part.second i unknown).inScope)
    (fun s => inScope_eq x s) (fun i s => inScope_eq (y i) s) (fun s sound => ?_)
    (fun s sound => ?_) (fun i s s' copy => ?_) (fun i s s' copy => ?_) fun _ => rfl
  · exact .of_turn { sound with } rfl rfl
  · have fewer : (s.scopes.drop 1).flatten.Sublist s.scopes.flatten :=
      (List.drop_sublist 1 s.scopes).flatten
    exact .of_turn { sound with
      below := fun e inside => sound.below e (fewer.subset inside)
      distinct := (fewer.map _).nodup sound.distinct
      usable := fun e inside => sound.usable e (fewer.subset inside) } rfl rfl
  · exact { copy with scopes := .cons .nil copy.scopes }
  · exact { copy with scopes := List.forall₂_drop 1 copy.scopes }

theorem inLoop {x : Parse α} {y : ι → Parse α} (part : Faithful c words low x y) :
    Faithful c words low (inLoop x) fun i => inLoop (y i) := by
  refine within part part.first.inLoop (fun i unknown => (part.second i unknown).inLoop)
    (fun s => inLoop_eq x s) (fun i s => inLoop_eq (y i) s) (fun s sound => ?_)
    (fun s sound => ?_) (fun i s s' copy => ?_) (fun i s s' copy => ?_) fun _ => rfl
  · exact .of_turn { sound with } rfl rfl
  · exact .of_turn { sound with } rfl rfl
  · exact { copy with loopDepth := congrArg (· + 1) copy.loopDepth }
  · exact { copy with loopDepth := congrArg (· - 1) copy.loopDepth }

theorem requireLoop (here : Nat) (there : ι → Nat) (keyword : String) :
    Faithful c words low (requireLoop c.source here keyword) fun i =>
      requireLoop (c.others i) (there i) keyword := by
  have onward : ∀ source place, Onward source (Parse.requireLoop source place keyword) :=
    fun _ _ => onward_get fun _ => onward_ite (onward_throw _) (onward_pure _)
  refine ⟨onward _ _, fun i _ => onward _ _, fun s a s₁ sound done clean s' alive copies => ?_⟩
  rw [requireLoop_eq] at done
  by_cases outside : s.loopDepth = 0
  · rw [if_pos outside] at done
    cases done
  · rw [if_neg outside] at done
    cases done
    refine tells_pure sound fun i live => ⟨s' i, ?_, copies i live⟩
    rw [requireLoop_eq, (copies i live).loopDepth, if_neg outside]

/-- A length within a limit is within any higher one. -/
theorem vectorLength (variants : c.Variants) (size : Tree) (here : Nat) (there : ι → Nat) :
    Faithful c words low (vectorLength c.source size here) fun i =>
      vectorLength (c.others i) (size.rename (c.naming i)) (there i) := by
  have run : ∀ s a s₁, Parse.vectorLength c.source size here s = .ok a s₁ → s₁ = s ∧ ∀ i s',
      Parse.vectorLength (c.others i) (size.rename (c.naming i)) (there i) s' = .ok a s' := by
    unfold Parse.vectorLength
    simp only [Tree.fold_rename, Tree.number_rename]
    cases size.fold.number? with
    | none => exact nofun
    | some x =>
        dsimp only
        by_cases large : x > c.source.limits.vectorSize.toFloat ∧ x.isFinite = true
        · rw [if_pos large]
          exact nofun
        rw [if_neg large]
        by_cases whole : x ≥ 1 ∧ isWhole x = true ∧ x.isFinite = true
        · rw [if_pos whole]
          rintro s _ _ ⟨⟩
          refine ⟨rfl, fun i s' => ?_⟩
          rw [if_neg fun large' => large ⟨variants.sizes i x large'.1, large'.2⟩, if_pos whole]
          rfl
        · rw [if_neg whole]
          exact nofun
  refine ⟨onward_vectorLength _ _, fun i _ => onward_vectorLength _ _,
    fun s a s₁ sound done clean s' alive copies => ?_⟩
  obtain ⟨rfl, same⟩ := run s a s₁ done
  exact tells_pure sound fun i live => ⟨s' i, same i (s' i), copies i live⟩

/-! ### Lists of statements -/

omit [Renamable α] in
theorem unclean_recover {source : Source} (errors : 0 < source.limits.errors) (d : Diagnostic)
    {f : Unit → Parse α} (rest : ∀ u, Onward source (f u)) : Unclean (recover source d >>= f) := by
  rw [recover, bind_assoc]
  exact unclean_record errors d fun _ => (onward_synchronize _ _).bind rest

theorem eatAll (sym : Sym) {fuel further : Nat} (rounds : c.Fuels fuel further) :
    Faithful c words low (eatAll c.source sym fuel) fun i => eatAll (c.others i) sym further := by
  induction rounds using Sides.Fuels.induction with
  | none => exact of_unclean (onward_eatAll _ _) (fun i _ => onward_eatAll _ _) nofun
  | first => exact of_unclean (onward_eatAll _ _) (fun i _ => onward_eatAll _ _) nofun
  | round fuel further rounds ih => exact eat sym ih (done ())

omit [Renamable β] in
/-- What is told if a part does not fail. Where it fails, what follows puts a diagnostic down. -/
theorem attempt {x : Parse β} {y : ι → Parse β} {f : Except Diagnostic β → Parse α}
    {g : ι → Except Diagnostic β → Parse α}
    (part : Faithful c words low (x >>= fun b => f (.ok b)) fun i => y i >>= fun b => g i (.ok b))
    (first : Onward c.source (attempt x >>= f))
    (second : ∀ i, c.unknown i ≠ none → Onward (c.others i) (attempt (y i) >>= g i))
    (unclean : ∀ d, Unclean (f (.error d)))
    (unclean' : ∀ i, c.unknown i ≠ none → ∀ d, Unclean (g i (.error d))) :
    Faithful c words low (attempt x >>= f) fun i => attempt (y i) >>= g i where
  first := first
  second := second
  tells := fun s a s₁ sound done clean s' alive copies => by
    cases begun : x s with
    | error d m =>
        rw [bind_completed (attempt_error begun)] at done
        exact absurd clean (unclean d m a s₁ done)
    | ok b m =>
        rw [bind_completed (attempt_ok begun)] at done
        obtain ⟨ms, recital, told⟩ := part.tells s a s₁ sound (by rwa [bind_completed begun]) clean
          s' alive copies
        refine ⟨ms, recital, fun i live accords => ?_⟩
        have told := told i live accords
        cases ended : y i (s' i) with
        | ok b' m' =>
            dsimp only at told ⊢
            rw [bind_completed ended] at told
            rwa [bind_completed (attempt_ok ended)]
        | error d m' =>
            dsimp only at told ⊢
            rw [bind_stopped ended] at told
            rw [bind_completed (attempt_error ended)]
            cases told with
            | hit hit => exact .hit hit ((unclean' i hit.unknown d).refused m')

theorem atStop (stop : Stop) :
    Faithful c words low (atStop c.source stop) fun i => atStop (c.others i) stop := by
  let seen : Option Token → Bool := fun t => t.elim true stop.stops
  have same : ∀ source, Parse.atStop source stop = peek source >>= fun t => pure (seen t) :=
    fun source => funext fun s => by
      rw [atStop_eq, bind_completed (peek_eq source s)]
      cases (s.look source 1).ahead.head?.map Prod.snd <;> rfl
  simp only [same]
  refine glance seen (fun name name' free free' => ?_) fun r => done r
  have other : ∀ name, isReserved name = false → seen (some (.word name)) = false := by
    intro name free
    cases stop with
    | input => rfl
    | brace => rfl
    | «until» =>
        refine beq_eq_false_iff_ne.mpr ?_
        rintro ⟨⟩
        cases free
  rw [other name free, other name' free']

theorem separated (stop : Stop) :
    Faithful c words low (separated c.source stop) fun i => separated (c.others i) stop := by
  have part : Faithful c words low (do
      if ← Parse.eat c.source .semicolon then return true else Parse.atStop c.source stop)
      (fun i => do
        if ← Parse.eat (c.others i) .semicolon then return true
        else Parse.atStop (c.others i) stop) := eat .semicolon (done true) (atStop stop)
  have run : ∀ source s, Parse.separated source stop s = (if s.afterBrace then pure true else do
      if ← Parse.eat source .semicolon then return true else Parse.atStop source stop : Parse Bool) s :=
    fun _ _ => rfl
  refine ⟨onward_separated stop, fun i _ => onward_separated stop,
    fun s a s₁ sound done clean s' alive copies => ?_⟩
  rw [run] at done
  refine ((ite (p := s.afterBrace = true) (Faithful.done true) part).tells s a s₁ sound done clean s'
    alive copies).after (.of_turn sound rfl rfl) fun i live => ?_
  rw [run, (copies i live).afterBrace]
  rfl

theorem statements (variants : c.Variants) {e : Parse Typed} {es : ι → Parse Typed}
    (reads : Faithful c words low (statement c.source e) fun i => statement (c.others i) (es i))
    {fuel further : Nat} (rounds : c.Fuels fuel further) (stop : Stop) (items : List Typed) :
    Faithful c words low (statements c.source e stop fuel items) fun i =>
      statements (c.others i) (es i) stop further (items.map (Typed.rename (c.naming i))) := by
  have ends := onward_statements reads.first stop
  have ends' : ∀ i, c.unknown i ≠ none → ∀ fuel items,
      Onward (c.others i) (Parse.statements (c.others i) (es i) stop fuel items) := fun i unknown =>
    onward_statements (reads.second i unknown) stop
  have out : ∀ further items, Faithful c words low (Parse.statements c.source e stop 0 items)
      fun i => Parse.statements (c.others i) (es i) stop further
        (items.map (Typed.rename (c.naming i))) := by
    intro further items
    refine of_unclean (ends 0 items) (fun i unknown => ends' i unknown _ _) ?_
    rw [Parse.statements]
    exact unclean_record variants.errors _ fun _ => onward_pure _
  induction rounds using Sides.Fuels.induction generalizing items with
  | none => exact out 0 items
  | first => exact out _ items
  | round fuel further rounds ih =>
      have next : ∀ item, Faithful c words low
          (Parse.statements c.source e stop fuel (item :: items)) fun i =>
            Parse.statements (c.others i) (es i) stop further
              (rename (c.naming i) item :: items.map (Typed.rename (c.naming i))) :=
        fun item => ih (item :: items)
      have first := fun result => onward_resumed stop (ends fuel) items result
      have second := fun i unknown => onward_resumed stop (ends' i unknown further)
        (items.map (Typed.rename (c.naming i)))
      simp only [statements_succ, c.allowance]
      refine (eatAll .semicolon c.allowed).bind variants fun _ =>
        (atStop stop).bind variants fun r => ite (p := r = true) ?_ <| attempt ?_
          (reads.first.attempt.bind first)
          (fun i unknown => (reads.second i unknown).attempt.bind (second i unknown))
          (fun d => unclean_recover variants.errors d fun _ => ends _ _)
          fun i unknown d => unclean_recover (variants.errors' i) d fun _ => ends' i unknown _ _
      · simp only [← List.map_reverse]
        exact done items.reverse
      · refine reads.bind variants fun item => (separated stop).bind variants fun r =>
          ite (p := r = true) (next item) (of_unclean ?_ (fun i unknown => ?_) ?_)
        · exact onward_position.bind fun _ => onward_peek.bind fun _ =>
            (onward_recover _).bind fun _ => ends _ _
        · exact onward_position.bind fun _ => onward_peek.bind fun _ =>
            (onward_recover _).bind fun _ => ends' i unknown _ _
        · exact .behind (fun _ => .behind (fun _ =>
            unclean_recover variants.errors _ fun _ => ends _ _) _) _

end Faithful

end MathScript.Parse
