import MathScript.Proofs.Likeness

/-!
A parser never takes a diagnostic back, and once no more diagnostics are kept and no token is left
it changes neither. This is so for every move, and so for whatever is put together from moves.
-/

namespace MathScript.Parse

/-- A state that comes after another one. -/
structure Later (limit : Nat) (s s' : State) : Prop where
  kept : s.diagnostics.toList <+: s'.diagnostics.toList
  spent : s.full limit = true → s.left = [] → s'.left = [] ∧ s'.diagnostics = s.diagnostics

namespace Later

variable {limit : Nat} {s m s' : State}

theorem refl (s : State) : Later limit s s := ⟨List.prefix_rfl, fun _ none => ⟨none, rfl⟩⟩

theorem trans (first : Later limit s m) (second : Later limit m s') : Later limit s s' where
  kept := first.kept.trans second.kept
  spent := fun full none => by
    obtain ⟨none', same⟩ := first.spent full none
    have full' : m.full limit = true := by rwa [State.full, same]
    obtain ⟨none'', same'⟩ := second.spent full' none'
    exact ⟨none'', same'.trans same⟩

/-- Tokens and diagnostics stay as they are. -/
theorem turn (ahead : s'.ahead = s.ahead) (rest : s'.rest = s.rest)
    (diagnostics : s'.diagnostics = s.diagnostics) : Later limit s s' where
  kept := diagnostics ▸ List.prefix_rfl
  spent := fun _ none => ⟨by rw [State.left, ahead, rest]; exact none, diagnostics⟩

theorem record (limit : Nat) (s : State) (d : Diagnostic) : Later limit s (s.record limit d) where
  kept := by
    unfold State.record
    by_cases full : s.full limit = true
    · simp [full]
    · simp only [full, Bool.false_eq_true, if_false]
      split <;> simp
  spent := fun full _ => by
    simp [State.record, full, State.left]

end Later

variable {source : Source}

theorem Act.later {b s : State} {took : Bool} {es : List Entry} (act : Act source b took es s) :
    Later source.limits.errors b s := by
  cases act with
  | look next => exact ⟨List.prefix_rfl, fun _ none => by simp [State.left, next] at none⟩
  | @fault position cause rest next =>
      refine ⟨?_, fun _ none => by simp [State.left, next] at none⟩
      exact (Later.record source.limits.errors { b with rest := rest } _).kept
  | take next => exact ⟨List.prefix_rfl, fun _ none => by simp [State.left, next] at none⟩
  | turn ahead rest diagnostics => exact .turn ahead rest diagnostics

theorem Stepped.later {b s : State} {took : Bool} (stepped : Stepped source b took s) :
    Later source.limits.errors b s := by
  obtain ⟨es, acts⟩ := stepped
  induction acts with
  | refl => exact .refl _
  | step _ act ih => exact ih.trans act.later

/-- A parser that only goes on from where it is, however it ends. -/
def Onward {α : Type} (source : Source) (x : Parse α) : Prop :=
  ∀ s, Ends x s (fun _ => Later source.limits.errors s) fun _ => Later source.limits.errors s

section

variable {α β : Type}

theorem onward_pure (a : α) : Onward source (pure a) := fun s => ends_pure (.refl s)

theorem onward_throw (d : Diagnostic) : Onward source (throw d : Parse α) :=
  fun s => ends_throw (.refl s)

/-- What comes behind a later state comes behind an earlier one. -/
theorem Later.ends {x : Parse α} {s m : State} (later : Later source.limits.errors s m)
    (onward : Onward source x) :
    Ends x m (fun _ => Later source.limits.errors s) fun _ => Later source.limits.errors s :=
  (onward m).mono (fun _ _ => later.trans) fun _ _ => later.trans

theorem Onward.bind {x : Parse α} {f : α → Parse β} (first : Onward source x)
    (rest : ∀ a, Onward source (f a)) : Onward source (x >>= f) :=
  fun s => ends_bind ((first s).mono (fun a _ later => later.ends (rest a)) fun _ _ => id)

theorem onward_ite {p : Prop} [Decidable p] {x y : Parse α} (yes : Onward source x)
    (no : Onward source y) : Onward source (if p then x else y) := by
  split
  · exact yes
  · exact no

theorem onward_stepped {x : Parse α}
    (steps : ∀ s, Ends x s (fun _ s' => ∃ took, Stepped source s took s') fun _ _ => False) :
    Onward source x := by
  refine fun s => (steps s).mono ?_ fun _ _ => False.elim
  rintro _ _ ⟨_, stepped⟩
  exact stepped.later

theorem onward_peek : Onward source (peek source) :=
  onward_stepped fun s => ⟨false, s.stepped_look⟩

theorem onward_position : Onward source (position source) :=
  onward_stepped fun s => by
    rw [Ends, position_eq]
    exact ⟨false, s.stepped_look⟩

theorem onward_advance : Onward source (advance source) := by
  refine onward_stepped fun s => (ends_advancing source s).mono (fun found s' advanced => ?_)
    fun _ _ => id
  cases found with
  | some t =>
      obtain ⟨position, ahead, next, rfl⟩ := advanced
      exact ⟨true, .taking next⟩
  | none =>
      obtain ⟨-, rfl⟩ := advanced
      exact ⟨false, s.stepped_look.trans (.of_act (.turn rfl rfl rfl))⟩

theorem onward_taking {γ : Type} {found? : Token → Option γ} {f : Nat → γ → Parse α} {x : Parse α}
    (yes : ∀ t r, found? t = some r → ∀ here, Onward source (f here r)) (no : Onward source x) :
    Onward source (taking source found? f x) := by
  intro s
  have looked : Later source.limits.errors s (s.look source 1) := s.stepped_look.later
  rw [Ends, taking]
  cases next : (s.look source 1).ahead with
  | nil => exact looked.ends no
  | cons first ahead =>
      obtain ⟨here, t⟩ := first
      dsimp only
      cases found : found? t with
      | none => exact looked.ends no
      | some r => exact (Stepped.taking next).later.ends (yes t r found here)

theorem onward_check (sym : Sym) : Onward source (check source sym) :=
  onward_peek.bind fun _ => onward_pure _

theorem onward_checkWord (word : String) : Onward source (checkWord source word) :=
  onward_peek.bind fun _ => onward_pure _

theorem onward_eat (sym : Sym) : Onward source (eat source sym) :=
  (onward_check sym).bind fun _ =>
    onward_ite (onward_advance.bind fun _ => onward_pure _) (onward_pure _)

theorem onward_eatWord (word : String) : Onward source (eatWord source word) :=
  (onward_checkWord word).bind fun _ =>
    onward_ite (onward_advance.bind fun _ => onward_pure _) (onward_pure _)

theorem onward_eatAll (sym : Sym) (fuel : Nat) : Onward source (eatAll source sym fuel) := by
  induction fuel with
  | zero => exact onward_throw _
  | succ fuel ih => exact (onward_eat sym).bind fun _ => onward_ite ih (onward_pure _)

theorem onward_get {f : State → Parse α} (rest : ∀ s, Onward source (f s)) :
    Onward source (get >>= f) :=
  fun s => rest s s

theorem onward_modifyGet {f : State → α × State} (ahead : ∀ s, (f s).2.ahead = s.ahead)
    (rest : ∀ s, (f s).2.rest = s.rest) (diagnostics : ∀ s, (f s).2.diagnostics = s.diagnostics) :
    Onward source (modifyGet f) :=
  fun s => Later.turn (ahead s) (rest s) (diagnostics s)

theorem Onward.inScope {x : Parse α} (part : Onward source x) : Onward source (inScope x) := by
  intro s
  apply ends_scoped
  have entered : Later source.limits.errors s { s with scopes := [] :: s.scopes } :=
    .turn rfl rfl rfl
  refine (entered.ends part).mono ?_ ?_ <;> exact fun _ _ later => later.trans (.turn rfl rfl rfl)

theorem Onward.inLoop {x : Parse α} (part : Onward source x) : Onward source (inLoop x) := by
  intro s
  apply ends_looped
  have entered : Later source.limits.errors s { s with loopDepth := s.loopDepth + 1 } :=
    .turn rfl rfl rfl
  refine (entered.ends part).mono ?_ ?_ <;> exact fun _ _ later => later.trans (.turn rfl rfl rfl)

theorem Onward.attempt {x : Parse α} (part : Onward source x) : Onward source (attempt x) := by
  intro s
  have ends := part s
  unfold Ends Parse.attempt at *
  cases end_eq : x s <;> rw [end_eq] at ends <;> exact ends

/-! ### Lists of statements -/

theorem onward_synchronize (fuel depth : Nat) : Onward source (synchronize source fuel depth) := by
  induction fuel generalizing depth with
  | zero => exact onward_throw _
  | succ fuel ih =>
      refine onward_peek.bind fun found => ?_
      cases found with
      | none => exact onward_pure _
      | some t =>
          exact onward_ite (onward_advance.bind fun _ => onward_pure _) <|
            onward_ite (onward_pure _) (onward_advance.bind fun _ => ih _)

theorem onward_record (d : Diagnostic) : Onward source (record source d) :=
  fun s => Later.record source.limits.errors s d

theorem onward_recover (d : Diagnostic) : Onward source (recover source d) :=
  (onward_record d).bind fun _ => onward_synchronize _ _

theorem onward_atStop (stop : Stop) : Onward source (atStop source stop) :=
  onward_stepped fun s => by
    rw [Ends, atStop_eq]
    exact ⟨false, s.stepped_look⟩

theorem onward_separated (stop : Stop) : Onward source (separated source stop) :=
  onward_stepped (ends_separating source stop)

/-- How a list goes on behind a statement that was tried. -/
def resumed (source : Source) (stop : Stop) (again : List Typed → Parse (List Typed))
    (items : List Typed) : Except Diagnostic Typed → Parse (List Typed)
  | .error d => do
      recover source d
      again items
  | .ok item => do
      if ← separated source stop then again (item :: items)
      else
        let here ← Parse.position source
        recover source (Diagnostic.locate source.text here (.missingSeparator (← peek source)))
        again (item :: items)

theorem statements_succ (source : Source) (expression : Parse Typed) (stop : Stop) (fuel : Nat)
    (items : List Typed) : statements source expression stop (fuel + 1) items = (do
      eatAll source .semicolon source.allowance
      if ← atStop source stop then return items.reverse
      else attempt (statement source expression) >>=
        resumed source stop (statements source expression stop fuel) items) := by
  rw [statements]
  rfl

theorem onward_resumed (stop : Stop) {again : List Typed → Parse (List Typed)}
    (on : ∀ items, Onward source (again items)) (items : List Typed)
    (result : Except Diagnostic Typed) : Onward source (resumed source stop again items result) := by
  cases result with
  | error d => exact (onward_recover d).bind fun _ => on items
  | ok item =>
      exact (onward_separated stop).bind fun _ => onward_ite (on _) <|
        onward_position.bind fun _ => onward_peek.bind fun _ => (onward_recover _).bind fun _ => on _

theorem onward_statements {expression : Parse Typed}
    (reads : Onward source (statement source expression)) (stop : Stop) (fuel : Nat)
    (items : List Typed) : Onward source (statements source expression stop fuel items) := by
  induction fuel generalizing items with
  | zero => exact (onward_record _).bind fun _ => onward_pure _
  | succ fuel ih =>
      rw [statements_succ]
      exact (onward_eatAll _ _).bind fun _ => (onward_atStop stop).bind fun _ =>
        onward_ite (onward_pure _) (reads.attempt.bind fun result => onward_resumed stop ih items result)

/-! ### Operands and declarations -/

theorem onward_vectorAhead : Onward source (vectorAhead source) :=
  onward_stepped fun s => (ends_vectorAhead s).mono (fun _ _ stepped => ⟨false, stepped⟩)
    fun _ _ => id

theorem onward_vectorLength (size : Tree) (here : Nat) :
    Onward source (vectorLength source size here) := by
  intro s
  refine (refuses_vectorLength source size s).mono ?_ ?_
  · rintro _ _ rfl
    exact .refl _
  · rintro _ _ ⟨rfl, -⟩
    exact .refl _

theorem onward_otherwise {expression : Parse Typed} (reads : Onward source expression) :
    Onward source (otherwise? source expression) :=
  (onward_eatWord _).bind fun _ => onward_ite (reads.bind fun _ => onward_pure _) <|
    (onward_check _).bind fun _ => onward_ite
      ((onward_stepped fun s => ⟨false, s.stepped_look_two⟩ : Onward source (peekSecond source)).bind
        fun _ => onward_ite
          (onward_advance.bind fun _ => onward_advance.bind fun _ => reads.bind fun _ =>
            onward_pure _) (onward_pure _))
      (onward_pure _)

theorem onward_declaration {expression : Parse Typed} {constant : Bool}
    (values : ∀ name here, Onward source (initialValue source expression name constant here)) :
    Onward source (declaration source expression constant) := by
  refine onward_advance.bind fun _ => onward_position.bind fun here =>
    onward_advance.bind fun found => ?_
  split
  · refine onward_ite (onward_throw _) <| (onward_get fun s => ?_).bind fun _ =>
      onward_ite (onward_throw _) <| (values _ here).bind fun _ =>
        (onward_modifyGet (fun _ => rfl) (fun _ => rfl) fun _ => rfl).bind fun _ => onward_pure _
    cases s.scopes <;> exact onward_pure _
  · exact onward_throw _

theorem onward_prefixed {inner : Parse Typed}
    (plain : ∀ t, (∀ name, t = .word name → steers name = true) → ∀ here,
      Onward source (headed source inner here t))
    (locals : ∀ binding here, Onward source (access source (expression source inner) binding here))
    (globals : ∀ name, steers name = false → ∀ here,
      Onward source (global source (expression source inner) name here)) :
    Onward source (prefixed source inner) := by
  intro s
  rw [Ends, prefixed_eq]
  have looked : Later source.limits.errors s (s.look source 1) := s.stepped_look.later
  cases next : (s.look source 1).ahead with
  | nil => exact looked.trans (.turn rfl rfl rfl)
  | cons first ahead =>
      obtain ⟨here, t⟩ := first
      have taken := (Stepped.taking next).later
      dsimp only
      by_cases semicolon : t = .sym .semicolon
      · rw [if_pos semicolon]
        exact looked
      · rw [if_neg semicolon]
        by_cases name : ∃ name, t = .word name ∧ steers name = false
        · obtain ⟨name, rfl, names⟩ := name
          rw [headed_name source inner here names]
          refine taken.ends (onward_get fun s => ?_)
          cases findLocal name s.scopes with
          | some l => exact locals _ here
          | none => exact globals name names here
        · refine taken.ends (plain t (fun word same => ?_) here)
          exact Bool.not_eq_false _ ▸ fun names => name ⟨word, same, names⟩

theorem onward_blind {unknown : Option (Nat × Nat)} {x : Parse α} (part : Onward source x) :
    Onward source (blind source unknown x) := by
  intro s
  obtain known | ⟨place, slot, name, ahead, -, -, -, -, stopped⟩ := blind_cases source unknown x s
  · rw [Ends, known]
    exact part s
  · rw [Ends, stopped]
    exact s.stepped_look.later

end

/-! ### Twins -/

variable {ι : Type} {c : Sides ι} {b : Bool} {α : Type} [Renamable α]

open Renamable

/-- Every side goes on from where it is, but for one that is lax or has new names. -/
theorem Twins.onward {x : Parse α} {y : ι → Parse α} (twins : Twins c b x y) :
    Onward c.source x ∧ ∀ i, c.Plain i → ¬ c.lax i → Onward (c.others i) (y i) := by
  induction twins with
  | done a => exact ⟨onward_pure _, fun _ _ _ => onward_pure _⟩
  | bind _ _ first rest =>
      refine ⟨first.1.bind fun a => (rest a).1, fun i plain strict =>
        (first.2 i plain strict).bind fun a => ?_⟩
      have on := (rest a).2 i plain strict
      rw [Sides.Plain] at plain
      simpa only [plain, rename_none] using on
  | inside _ ih => exact ih
  | stalled _ _ ih => exact ⟨onward_throw _, ih.2⟩
  | tooDeep strict =>
      have deep : ∀ source, Onward source (Parse.tooDeep source) := fun source =>
        onward_position.bind fun _ => onward_throw _
      exact ⟨deep _, fun i _ held => strict i held ▸ deep _⟩
  | fail => exact ⟨onward_throw _, fun _ _ _ => onward_throw _⟩
  | refuse =>
      exact ⟨onward_peek.bind fun _ => onward_throw _,
        fun _ _ _ => onward_peek.bind fun _ => onward_throw _⟩
  | position _ rest =>
      refine ⟨onward_position.bind fun here => ?_, fun i plain strict =>
        onward_position.bind fun place => ?_⟩
      · obtain ⟨there, near⟩ := c.toward here
        exact (rest here there near).1
      · obtain ⟨here, there, near, rfl⟩ := c.back i place
        exact (rest here there near).2 i plain strict
  | glance seen _ _ _ rest =>
      exact ⟨onward_peek.bind fun _ => (rest _).1,
        fun i plain strict => onward_peek.bind fun _ => (rest _).2 i plain strict⟩
  | take found? _ _ _ _ yes no =>
      refine ⟨onward_taking (fun t r found here => ?_) no.1, fun i plain strict =>
        onward_taking (fun t r found place => ?_) (no.2 i plain strict)⟩
      · obtain ⟨there, near⟩ := c.toward here
        exact (yes t r found here there near).1
      · obtain ⟨here, there, near, rfl⟩ := c.back i place
        exact (yes t r found here there near).2 i plain strict
  | operand _ _ _ plain locals globals =>
      refine ⟨onward_prefixed (fun t other here => ?_) (fun binding here => ?_)
        fun name names here => ?_, fun i unnamed strict => onward_blind <|
          onward_prefixed (fun t other place => ?_) (fun binding place => ?_)
            fun name names place => ?_⟩
      · obtain ⟨there, near⟩ := c.toward here
        exact (plain t other here there near).1
      · obtain ⟨there, near⟩ := c.toward here
        exact (locals binding here there near).1
      · obtain ⟨there, near⟩ := c.toward here
        exact (globals name names here there near).1
      · obtain ⟨here, there, near, rfl⟩ := c.back i place
        exact (plain t other here there near).2 i unnamed strict
      · obtain ⟨here, there, near, rfl⟩ := c.back i place
        have on := (locals binding here there near).2 i unnamed strict
        rw [Sides.Plain] at unnamed
        simpa only [unnamed, Binding.rename_none] using on
      · obtain ⟨here, there, near, rfl⟩ := c.back i place
        exact (globals name names here there near).2 i unnamed strict
  | requireLoop =>
      have loop : ∀ source place keyword, Onward source (Parse.requireLoop source place keyword) :=
        fun _ _ _ => onward_get fun _ => onward_ite (onward_throw _) (onward_pure _)
      exact ⟨loop _ _ _, fun _ _ _ => loop _ _ _⟩
  | vectorLength => exact ⟨onward_vectorLength _ _, fun _ _ _ => onward_vectorLength _ _⟩
  | otherwise _ ih =>
      exact ⟨onward_otherwise ih.1, fun i plain strict => onward_otherwise (ih.2 i plain strict)⟩
  | vectorAhead => exact ⟨onward_vectorAhead, fun _ _ _ => onward_vectorAhead⟩
  | inScope _ ih => exact ⟨ih.1.inScope, fun i plain strict => (ih.2 i plain strict).inScope⟩
  | inLoop _ ih => exact ⟨ih.1.inLoop, fun i plain strict => (ih.2 i plain strict).inLoop⟩
  | declaring _ _ _ values yes no =>
      refine ⟨(onward_checkWord _).bind fun _ => onward_ite
        ((onward_declaration fun name here => ?_).bind fun node => (yes node).1) no.1,
        fun i plain strict => (onward_checkWord _).bind fun _ => onward_ite
          ((onward_declaration fun name place => ?_).bind fun node => ?_) (no.2 i plain strict)⟩
      · obtain ⟨there, near⟩ := c.toward here
        exact (values name (fun _ => name) (fun _ _ => rfl) here there near).1
      · obtain ⟨here, there, near, rfl⟩ := c.back i place
        exact (values name (fun _ => name) (fun _ _ => rfl) here there near).2 i plain strict
      · have on := (yes node).2 i plain strict
        rw [Sides.Plain] at plain
        simpa only [plain, rename_none] using on
  | statements _ _ stop items ih =>
      exact ⟨onward_statements ih.1 stop _ items,
        fun i plain strict => onward_statements (ih.2 i plain strict) stop _ _⟩

end MathScript.Parse
