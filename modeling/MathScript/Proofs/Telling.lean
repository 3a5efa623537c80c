import MathScript.Proofs.Mentions

/-!
Every parser tells by its mentions what it is on the other sides. A name is found under its new name
just where it was found under its old one, since no local that is visible has a new name but the one
that it is for. A declaration gives the new name to its local, and leaving a scope gives back what
was visible before.
-/

namespace MathScript.Token

/-- The word that a token is. -/
def wordOr (other : String) : Token → String
  | .word name => name
  | _ => other

@[simp] theorem wordOr_word (other name : String) : (word name).wordOr other = name := rfl

end MathScript.Token

namespace MathScript.Parse

open Renamable

variable {ι : Type} {c : Sides ι} {words : ι → Nat → Option String} {low : Nat}

/-! ### Looking names up -/

theorem findLocal_eq (name : String) (scopes : List Scope) :
    findLocal name scopes = scopes.flatten.lookup name := by
  induction scopes with
  | nil => rfl
  | cons scope outer ih => rw [findLocal, List.flatten_cons, List.lookup_append, ih]

section

variable {i : ι} {es es' : List (String × Local)}

/-- A name that is no new name, and whose local has none, is found as before. -/
theorem lookup_kept (called : List.Forall₂ (Called c i) es es') {name : String}
    (other : ∀ slot, c.naming i slot ≠ some name)
    (kept : ∀ l, es.lookup name = some l → c.naming i l.slot = none) :
    es'.lookup name = es.lookup name := by
  induction called with
  | nil => rfl
  | cons first _ ih =>
      cases first with
      | @same name' l =>
          rw [List.lookup_cons, List.lookup_cons] at *
          cases same : name == name' with
          | true => rfl
          | false =>
              simp only [same] at kept
              exact ih kept
      | @new name' word l changed =>
          have apart : (name == word) = false :=
            beq_eq_false_iff_ne.mpr fun same => other l.slot (same ▸ changed)
          rw [List.lookup_cons, List.lookup_cons] at *
          cases same : name == name' with
          | true =>
              simp only [same] at kept
              rw [kept l rfl] at changed
              cases changed
          | false =>
              simp only [same] at kept
              simp only [apart]
              exact ih kept

/-- A local that has a new name is found under it. -/
theorem lookup_new (variants : c.Variants) (called : List.Forall₂ (Called c i) es es')
    (distinct : (es.map fun e => e.2.slot).Nodup) {name word : String} {l : Local}
    (inside : (name, l) ∈ es) (changed : c.naming i l.slot = some word) :
    es'.lookup word = some l := by
  induction called with
  | nil => cases inside
  | @cons e e' es es' first rest ih =>
      rw [List.map_cons, List.nodup_cons] at distinct
      cases first with
      | @same name' l' kept other =>
          have apart : (word == name') = false :=
            beq_eq_false_iff_ne.mpr fun same => other l.slot (same ▸ changed)
          rw [List.lookup_cons]
          simp only [apart]
          refine ih distinct.2 ((List.mem_cons.mp inside).resolve_left ?_)
          rintro ⟨⟩
          rw [kept] at changed
          cases changed
      | @new name' word' l' changed' =>
          rw [List.lookup_cons]
          rcases List.mem_cons.mp inside with same | inside
          · cases same
            rw [changed] at changed'
            cases changed'
            simp
          · have apart : (word == word') = false := by
              refine beq_eq_false_iff_ne.mpr fun same => distinct.1 ?_
              have slots := variants.distinct i _ _ word changed (same ▸ changed')
              rw [← slots]
              exact List.mem_map_of_mem (f := fun e : String × Local => e.2.slot) inside
            simp only [apart]
            exact ih distinct.2 inside

end

theorem called_flatten {i : ι} {scopes scopes' : List Scope}
    (called : List.Forall₂ (List.Forall₂ (Called c i)) scopes scopes') :
    List.Forall₂ (Called c i) scopes.flatten scopes'.flatten := by
  induction called with
  | nil => exact .nil
  | cons first _ ih => exact List.rel_append first ih

/-- What is found of a name, and of what it is on a side, is one local. Its new name is the one that
the name has there. -/
theorem Copy.found {i : ι} {s s' : State} (variants : c.Variants) (sound : Sound low s)
    (copy : Copy c words i s s') {here there : Nat} {name word : String}
    (worded : Worded c words i (here, .word name) (there, .word word))
    (accords : words i here = ((findLocal name s.scopes).map Local.slot).bind (c.naming i)) :
    findLocal word s'.scopes = findLocal name s.scopes ∧
      ((findLocal name s.scopes).bind fun l => c.naming i l.slot).getD name = word := by
  have called := called_flatten copy.scopes
  rw [findLocal_eq, findLocal_eq] at *
  rw [Option.bind_map] at accords
  cases worded with
  | same _ kept other =>
      rw [kept name rfl] at accords
      refine ⟨lookup_kept called (other name rfl) fun l found => ?_, ?_⟩
      · simpa [found] using accords.symm
      · change ((s.scopes.flatten.lookup name).bind (c.naming i ∘ Local.slot)).getD name = name
        rw [← accords]
        rfl
  | new _ changed =>
      rw [changed] at accords
      obtain ⟨l, found, named⟩ := Option.bind_eq_some_iff.mp accords.symm
      obtain ⟨before, after, there, -⟩ := List.lookup_eq_some_iff.mp found
      refine ⟨?_, ?_⟩
      · have inside : (name, l) ∈ s.scopes.flatten := by simp [there]
        rw [found]
        exact lookup_new variants called sound.distinct inside named
      · rw [found]
        exact congrArg (Option.getD · name) named

theorem reserved_of_steers {name : String} (steering : steers name = true) :
    isReserved name = true := by
  simp only [steers, List.contains_eq_mem, List.mem_cons, List.not_mem_nil, or_false,
    decide_eq_true_eq] at steering
  rcases steering with rfl | rfl | rfl | rfl | rfl | rfl | rfl | rfl | rfl | rfl | rfl | rfl | rfl |
    rfl <;> rfl

/-- A token that is not a name is the same on all sides. -/
theorem Worded.plain {i : ι} {here there : Nat} {t t' : Token}
    (worded : Worded c words i (here, t) (there, t'))
    (other : ∀ name, t = .word name → steers name = true) : t' = t := by
  cases worded with
  | same => rfl
  | new _ _ free =>
      rw [reserved_of_steers (other _ rfl)] at free
      cases free

/-- A name is a name on all sides. -/
theorem Worded.name {i : ι} {here there : Nat} {name : String} {t' : Token}
    (worded : Worded c words i (here, .word name) (there, t')) (names : steers name = false) :
    ∃ word, t' = .word word ∧ steers word = false := by
  cases worded with
  | same => exact ⟨name, rfl, names⟩
  | new _ _ _ free' =>
      refine ⟨_, rfl, Bool.eq_false_iff.mpr fun steering => ?_⟩
      rw [reserved_of_steers steering] at free'
      cases free'

theorem State.scopes_pull {source : Source} (s : State) (ls : List Lexeme) :
    (s.pull source ls).scopes = s.scopes := by
  have recorded : ∀ (s : State) limit d, (s.record limit d).scopes = s.scopes := by
    intro s limit d
    unfold State.record
    by_cases full : s.full limit = true
    · simp [full]
    · simp only [full, Bool.false_eq_true, if_false]
      split <;> rfl
  induction ls generalizing s with
  | nil => rfl
  | cons l rest ih =>
      rw [State.pull]
      cases l.content with
      | ok t => rfl
      | error cause =>
          dsimp only
          split
          · exact recorded s _ _
          · rw [ih, recorded]

theorem State.scopes_look {source : Source} (s : State) :
    (s.look source 1).scopes = s.scopes := by
  rw [State.look_one]
  split
  · exact s.scopes_pull s.rest
  · rfl

/-! ### Operands -/

/-- What looks first, and is then blind, looks first. -/
theorem blind_look {source : Source} {unknown : Option (Nat × Nat)} {α : Type} {x : Parse α}
    (looks : ∀ s, x (s.look source 1) = x s) (s : State) :
    blind source unknown x (s.look source 1) = blind source unknown x s := by
  cases unknown with
  | none => exact looks s
  | some local' =>
      unfold blind
      dsimp only
      rw [State.look_look, State.scopes_look, looks]

/-- What is found at a name is mentioned there. -/
def mentioned (s : State) (here : Nat) (name : String) : Mention :=
  ⟨here, name, (findLocal name s.scopes).map Local.slot, false⟩

/-- A name is taken that is looked up. -/
theorem Recital.mentioned {s : State} (sound : Sound low s) {here : Nat} {name : String}
    {ahead : List (Nat × Token)} (next : s.ahead = (here, .word name) :: ahead)
    (other : name ≠ "var") :
    Recital low s [mentioned s here name] (s.behind (.word name) ahead) where
  sound := { sound with }
  frame := Nat.le_refl _
  slots := by simp [State.behind, Mention.declared, Parse.mentioned]
  took := by
    have other' : Token.word name ≠ .word "var" := fun same => other (Token.word.inj same)
    refine ⟨[⟨here, .ok (.word name)⟩], State.left_ahead next, .refl _, ?_, ?_⟩
    · intro m inside declares
      obtain rfl := List.mem_singleton.mp inside
      cases declares
    · intro front place back same
      obtain ⟨m, inside, -⟩ := (Within.single other').all front place back same
      cases inside
  usable := fun m inside slot same above => by
    obtain rfl := List.mem_singleton.mp inside
    obtain ⟨l, found, rfl⟩ := Option.map_eq_some_iff.mp same
    rw [findLocal_eq] at found
    obtain ⟨before, after, there, -⟩ := List.lookup_eq_some_iff.mp found
    exact sound.usable (name, l) (by simp [there]) above

/-- A parser that does not know a local fails at a mention of it and at no other name. -/
theorem blind_mentioned {α : Type} (variants : c.Variants) {i : ι} {s s' : State} {x : Parse α}
    (poised : s'.Poised) {here there : Nat} {name word : String} {ahead' : List (Nat × Token)}
    (near : c.near i here there) (next : s'.ahead = (there, .word word) :: ahead')
    (names : steers word = false) (found : findLocal word s'.scopes = findLocal name s.scopes) :
    Hit c i [mentioned s here name] ∧ Refused (blind (c.others i) (c.unknown i) x s') ∨
      ¬ Hit c i [mentioned s here name] ∧ blind (c.others i) (c.unknown i) x s' = x s' := by
  by_cases hit : Hit c i [mentioned s here name]
  · refine .inl ⟨hit, ?_⟩
    obtain ⟨m, inside, -, slot, same, unknown⟩ := hit
    obtain rfl := List.mem_singleton.mp inside
    obtain rfl := (variants.blind i (by rw [unknown]; exact Option.some_ne_none _)).2.2 here there near
    rw [unknown, blind]
    dsimp only
    rw [State.look_poised poised, next]
    dsimp only
    rw [if_pos ⟨rfl, names, (congrArg (Option.map Local.slot) found).trans same⟩]
    trivial
  · refine .inr ⟨hit, ?_⟩
    obtain known | ⟨place, slot, word', rest, unknown, next', -, found', -⟩ :=
      blind_cases (c.others i) (c.unknown i) x s'
    · exact known
    · rw [State.look_poised poised, next] at next'
      cases next'
      obtain rfl := (variants.blind i (by rw [unknown]; exact Option.some_ne_none _)).2.2 here there near
      exact absurd ⟨_, List.mem_singleton_self _, rfl, slot,
        (congrArg (Option.map Local.slot) found).symm.trans found', unknown⟩ hit

variable {α β : Type} [Renamable α] [Renamable β]

namespace Faithful

section

variable (variants : c.Variants)

include variants

omit variants in
/-- A name is found on the sides where it is mentioned under its new name. -/
theorem tells_identifier {inner : Parse Typed} {inners : ι → Parse Typed} {name : String}
    {here : Nat} {there : ι → Nat}
    (locals : ∀ (binding : Binding),
      Faithful c words low (access c.source (expression c.source inner) binding here) fun i =>
        access (c.others i) (expression (c.others i) (inners i)) (binding.rename (c.naming i))
          (there i))
    (globals : Faithful c words low (global c.source (expression c.source inner) name here) fun i =>
      global (c.others i) (expression (c.others i) (inners i)) name (there i))
    {s s₁ : State} {a : Typed} (sound : Sound low s)
    (done : identifier c.source (expression c.source inner) name here s = .ok a s₁)
    (clean : s₁.diagnostics = #[]) (s' : ι → State) (alive : ι → Prop)
    (copies : ∀ i, alive i → Copy c words i s (s' i)) (word : ι → String)
    (found : ∀ i, alive i → findLocal (word i) (s' i).scopes = findLocal name s.scopes ∧
      ((findLocal name s.scopes).bind fun l => c.naming i l.slot).getD name = word i) :
    Tells c words low s a s₁
      (fun i => identifier (c.others i) (expression (c.others i) (inners i)) (word i) (there i))
      s' alive := by
  rw [identifier_eq] at done
  cases visible : findLocal name s.scopes with
  | some l =>
      rw [visible] at done found
      refine ((locals _).tells s a s₁ sound done clean s' alive copies).after
        (.of_turn sound rfl rfl) fun i live => ?_
      obtain ⟨same, named⟩ := found i live
      rw [identifier_eq, same, ← named]
      rfl
  | none =>
      rw [visible] at done found
      refine (globals.tells s a s₁ sound done clean s' alive copies).after
        (.of_turn sound rfl rfl) fun i live => ?_
      obtain ⟨same, rfl⟩ := found i live
      rw [identifier_eq, same]

omit variants in
/-- An operand that no name begins is told by what follows its first token. -/
theorem tells_headed {inner : Parse Typed} {inners : ι → Parse Typed} {t : Token}
    (plain : ∀ name, t = .word name → steers name = true) (semicolon : t ≠ .sym .semicolon)
    {here : Nat} {there : ι → Nat}
    (faithful : Faithful c words low (headed c.source inner here t) fun i =>
      headed (c.others i) (inners i) (there i) t)
    {s s₁ : State} {a : Typed} {ahead : List (Nat × Token)} (sound : Sound low s)
    (next : s.ahead = (here, t) :: ahead)
    (done : headed c.source inner here t (s.behind t ahead) = .ok a s₁)
    (clean : s₁.diagnostics = #[]) {s' : ι → State} {alive : ι → Prop} {t' : ι → Token}
    {ahead' : ι → List (Nat × Token)} (poised : ∀ i, alive i → (s' i).Poised)
    (heads : ∀ i, alive i → (s' i).ahead = (there i, t' i) :: ahead' i ∧
      Worded c words i (here, t) (there i, t' i) ∧
      Copy c words i (s.behind t ahead) ((s' i).behind (t' i) (ahead' i))) :
    Tells c words low s a s₁
      (fun i => blind (c.others i) (c.unknown i) (prefixed (c.others i) (inners i))) s' alive := by
  have other : t ≠ .word "var" := by
    rintro rfl
    cases done
  refine (faithful.tells _ a s₁ (sound.behind t ahead) done clean _ alive
    fun i live => (heads i live).2.2).after (.behind sound next other) fun i live => ?_
  obtain ⟨next', worded, -⟩ := heads i live
  obtain same := worded.plain plain
  have seen : blind (c.others i) (c.unknown i) (prefixed (c.others i) (inners i)) (s' i) =
      prefixed (c.others i) (inners i) (s' i) := by
    refine (blind_cases _ _ _ _).resolve_right ?_
    rintro ⟨place, slot, word, rest, -, next'', names, -⟩
    rw [State.look_poised (poised i live), next', same] at next''
    cases next''
    rw [plain word rfl] at names
    cases names
  rw [seen, prefixed_eq, State.look_poised (poised i live), next', same]
  exact if_neg semicolon

/-- An operand that a name begins mentions that name, and is told by it and by what follows it. -/
theorem tells_named {inner : Parse Typed} {inners : ι → Parse Typed} {name : String}
    (names : steers name = false) {here : Nat} {there : ι → Nat}
    (locals : ∀ (binding : Binding),
      Faithful c words low (access c.source (expression c.source inner) binding here) fun i =>
        access (c.others i) (expression (c.others i) (inners i)) (binding.rename (c.naming i))
          (there i))
    (globals : Faithful c words low (global c.source (expression c.source inner) name here) fun i =>
      global (c.others i) (expression (c.others i) (inners i)) name (there i))
    {s s₁ : State} {a : Typed} {ahead : List (Nat × Token)} (sound : Sound low s)
    (next : s.ahead = (here, .word name) :: ahead)
    (done : headed c.source inner here (.word name) (s.behind (.word name) ahead) = .ok a s₁)
    (clean : s₁.diagnostics = #[]) {s' : ι → State} {alive : ι → Prop}
    (copies : ∀ i, alive i → Copy c words i s (s' i) ∧ (s' i).Poised) {t' : ι → Token}
    {ahead' : ι → List (Nat × Token)}
    (heads : ∀ i, alive i → (s' i).ahead = (there i, t' i) :: ahead' i ∧
      Worded c words i (here, .word name) (there i, t' i) ∧
      Copy c words i (s.behind (.word name) ahead) ((s' i).behind (t' i) (ahead' i))) :
    Tells c words low s a s₁
      (fun i => blind (c.others i) (c.unknown i) (prefixed (c.others i) (inners i))) s' alive := by
  rw [headed_name c.source inner here names] at done
  let m := mentioned s here name
  have words' : ∀ i, alive i → ∃ word, t' i = .word word ∧ steers word = false :=
    fun i live => (heads i live).2.1.name names
  have found : ∀ i, alive i → Accords c words i [m] → ∀ word, t' i = .word word →
      findLocal word (s' i).scopes = findLocal name s.scopes ∧
      ((findLocal name s.scopes).bind fun l => c.naming i l.slot).getD name = word :=
    fun i live accords word same => (copies i live).1.found variants sound
      (same ▸ (heads i live).2.1) (accords m (List.mem_singleton_self m))
  -- The rest is told on the sides that agree with the mention of the name itself.
  obtain ⟨ms, recital, told⟩ := tells_identifier locals globals (sound.behind _ ahead) done clean
    _ (fun i => alive i ∧ Accords c words i [m]) (fun i live => (heads i live.1).2.2)
    (fun i => (t' i).wordOr name)
    fun i live => by
      obtain ⟨word, same, -⟩ := words' i live.1
      rw [same, Token.wordOr_word]
      exact found i live.1 live.2 word same
  refine ⟨m :: ms, ?_, fun i live accords => ?_⟩
  · exact (Recital.mentioned sound next (by rintro rfl; cases names)).trans recital
  · rw [← List.singleton_append, accords_append] at accords
    obtain ⟨accords, accords'⟩ := accords
    obtain ⟨next', worded, -⟩ := heads i live
    obtain ⟨word, same, names'⟩ := words' i live
    have told := told i ⟨live, accords⟩ accords'
    simp only [same, Token.wordOr_word] at next' told
    obtain ⟨hit, refused⟩ | ⟨spared, seen⟩ := blind_mentioned variants
      (x := prefixed (c.others i) (inners i)) (copies i live).2 worded.near next' names'
      (found i live accords word same).1
    · exact .hit (hit.append_left ms) refused
    · dsimp only
      rw [seen, prefixed_eq, State.look_poised (copies i live).2, next']
      dsimp only
      rw [if_neg (by rintro ⟨⟩), headed_name _ _ _ names']
      exact told.behind spared

theorem operand {inner : Parse Typed} {inners : ι → Parse Typed}
    (plain : ∀ t, (∀ name, t = .word name → steers name = true) → ∀ here there,
      c.Near here there → Faithful c words low (headed c.source inner here t) fun i =>
        headed (c.others i) (inners i) (there i) t)
    (locals : ∀ (binding : Binding) here there, c.Near here there →
      Faithful c words low (access c.source (expression c.source inner) binding here) fun i =>
        access (c.others i) (expression (c.others i) (inners i)) (binding.rename (c.naming i))
          (there i))
    (globals : ∀ name, steers name = false → ∀ here there, c.Near here there →
      Faithful c words low (global c.source (expression c.source inner) name here) fun i =>
        global (c.others i) (expression (c.others i) (inners i)) name (there i)) :
    Faithful c words low (prefixed c.source inner) fun i =>
      blind (c.others i) (c.unknown i) (prefixed (c.others i) (inners i)) := by
  have looks : ∀ (source : Source) (inner : Parse Typed) s,
      prefixed source inner (s.look source 1) = prefixed source inner s := fun source inner s => by
    rw [prefixed_eq, prefixed_eq, State.look_look]
  refine of_look ?_ (fun i unknown => onward_blind ?_) (looks _ _) (fun i => blind_look (looks _ _)) ?_
  · refine onward_prefixed (fun t other here => ?_) (fun binding here => ?_) fun name names here => ?_
    all_goals obtain ⟨there, near⟩ := c.toward here
    · exact (plain t other here there near).first
    · exact (locals binding here there near).first
    · exact (globals name names here there near).first
  · have unnamed := (variants.blind i unknown).1
    rw [Sides.Plain] at unnamed
    refine onward_prefixed (fun t other place => ?_) (fun binding place => ?_)
      fun name names place => ?_
    all_goals obtain ⟨here, there, near, rfl⟩ := c.back i place
    · exact (plain t other here there near).second i unknown
    · simpa only [unnamed, Binding.rename_none] using
        (locals binding here there near).second i unknown
    · exact (globals name names here there near).second i unknown
  · intro s a s₁ sound poised done clean s' alive copies
    rw [prefixed_eq, State.look_poised poised] at done
    cases next : s.ahead with
    | nil =>
        rw [next] at done
        cases done
    | cons first ahead =>
        obtain ⟨here, t⟩ := first
        rw [next] at done
        dsimp only at done
        by_cases semicolon : t = .sym .semicolon
        · rw [if_pos semicolon] at done
          cases done
        rw [if_neg semicolon] at done
        obtain ⟨there, t', ahead', nears, heads⟩ := Copy.heads (fun i live => (copies i live).1) next
        by_cases name : ∃ name, t = .word name ∧ steers name = false
        · obtain ⟨name, rfl, names⟩ := name
          exact tells_named variants names (fun binding => locals binding here there nears)
            (globals name names here there nears) sound next done clean copies heads
        · have plain' : ∀ word, t = .word word → steers word = true := fun word same =>
            Bool.not_eq_false _ ▸ fun names => name ⟨word, same, names⟩
          exact tells_headed plain' semicolon (plain t plain' here there nears) sound next done clean
            (fun i live => (copies i live).2) heads

end

end Faithful

end MathScript.Parse
