import MathScript.Proofs.Declarations

/-!
Statement lists. A declaration brings a local into the innermost scope, and the statements
behind it are built with its slot in use. A faulty statement leaves a diagnostic and no node;
its declarations are gone, the slots they took are not used again. When the scope is left,
nothing of it is seen outside.
-/

namespace MathScript.Parse

open Tree

variable {offers : Grant → Prop} {scopes : List Scope} {base : List Slot} {s s' : State}
  {α β : Type}

/-- `items` were read into the innermost scope while the layout grew from `base`. -/
def Listing (offers : Grant → Prop) (scopes : List Scope) (base : List Slot)
    (items : List Tree) (s : State) : Prop :=
  ∃ layout, base <+: layout ∧ Laid offers layout s ∧ s.scopes.drop 1 = scopes.drop 1 ∧
    slots s.scopes ⊆ items.flatMap declares ++ slots scopes ∧
    (∀ before t after, items = before ++ t :: after →
      Built offers layout (before.flatMap declares ++ slots scopes) t) ∧
    Spread base.length layout.length items

theorem At.empty (at_ : At offers scopes base [] s) : Listing offers scopes base [] s := by
  obtain ⟨layout, grown, laid, scopes_eq, -, -⟩ := at_
  refine ⟨layout, grown, laid, by rw [scopes_eq], ?_, by simp, Spread.nil⟩
  rw [scopes_eq]
  exact List.subset_append_right _ _

theorem At.single {t : Tree} (at_ : At offers scopes base [t] s) :
    Listing offers scopes base [t] s := by
  obtain ⟨layout, grown, laid, scopes_eq, built, spread⟩ := at_
  refine ⟨layout, grown, laid, by rw [scopes_eq], ?_, fun before u after split => ?_, spread⟩
  · rw [scopes_eq]
    exact List.subset_append_right _ _
  · obtain ⟨rfl, rfl, rfl⟩ : before = [] ∧ u = t ∧ after = [] := by
      cases before <;> simp_all
    simpa using built u (by simp)

namespace Listing

variable {items : List Tree}

theorem same (listing : Listing offers scopes base items s) (same : Same s s') :
    Listing offers scopes base items s' := by
  obtain ⟨layout, grown, laid, outer, inner, built, spread⟩ := listing
  exact ⟨layout, grown, laid.same same, by rw [same.scopes, outer], by rwa [same.scopes], built,
    spread⟩

theorem ahead (listing : Listing offers scopes base items s) : Ahead offers s := by
  obtain ⟨layout, -, laid, -⟩ := listing
  exact laid.ahead

/-- What is read next starts from the scopes and the layout the list has come to. -/
theorem further (listing : Listing offers scopes base items s) :
    ∃ layout, base <+: layout ∧ At offers s.scopes layout [] s ∧
      ∀ more s', Listing offers s.scopes layout more s' →
        Listing offers scopes base (items ++ more) s' := by
  obtain ⟨layout, grown, laid, outer, inner, built, spread⟩ := listing
  refine ⟨layout, grown, ⟨layout, List.prefix_rfl, laid, rfl, by simp, Spread.nil⟩, ?_⟩
  rintro more s' ⟨layout', grown', laid', outer', inner', built', spread'⟩
  have used : ∀ before : List Tree,
      before.flatMap declares ++ slots s.scopes ⊆
        (items ++ before).flatMap declares ++ slots scopes := by
    intro before i inside
    simp only [List.flatMap_append, List.mem_append] at inside ⊢
    rcases inside with here | rest
    · exact .inl (.inr here)
    · rcases List.mem_append.mp (inner rest) with old | outside
      · exact .inl (.inl old)
      · exact .inr outside
  refine ⟨layout', grown.trans grown', laid', outer'.trans outer,
    List.Subset.trans inner' (used more), fun before t after split => ?_,
    spread.append spread' grown.length_le grown'.length_le⟩
  -- A statement behind the seam is one of `more`; one before it was built already.
  rcases List.append_eq_append_iff.mp split with
    ⟨rest, before_eq, more_eq⟩ | ⟨rest, items_eq, after_eq⟩
  · subst before_eq
    exact (built' rest t after more_eq).mono (fun _ => id) List.prefix_rfl (used rest)
  · cases rest with
    | nil =>
        have whole : items = before := by simpa using items_eq
        subst whole
        have first := (built' [] t after (by simpa using after_eq.symm)).mono (fun _ => id)
          List.prefix_rfl (used [])
        simpa using first
    | cons u rest =>
        obtain ⟨rfl, -⟩ : t = u ∧ after = rest ++ more := by simpa using after_eq
        exact (built before t rest items_eq).mono (fun _ => id) grown' (List.Subset.refl _)

end Listing

/-! ### One statement -/

/-- A part that reads into the innermost scope; if it fails, the scopes stay. -/
def Enters (offers : Grant → Prop) (scopes : List Scope) (input : List Tree) (x : Parse α)
    (items : α → List Tree) (told : α → Prop) : Prop :=
  ∀ base s, At offers scopes base input s →
    Ends x s (fun a s' => told a ∧ Listing offers scopes base (items a) s')
      fun _ s' => At offers scopes base [] s'

theorem Enters.ends {input : List Tree} {x : Parse α} {items : α → List Tree} {told : α → Prop}
    (enters : Enters offers scopes input x items told) (at_ : At offers scopes base input s) :
    Ends x s (fun a s' => told a ∧ Listing offers scopes base (items a) s')
      fun _ s' => At offers scopes base [] s' :=
  enters base s at_

theorem Yields.enters {input : List Tree} {x : Parse β} {f : β → Parse α}
    {pieces : β → List Tree} {items : α → List Tree} {told : β → Prop} {told' : α → Prop}
    (first : Yields offers scopes input x pieces told)
    (rest : ∀ b, told b → Enters offers scopes (pieces b) (f b) items told') :
    Enters offers scopes input (x >>= f) items told' := by
  intro base s at_
  refine ends_bind ((first base s at_).mono ?_ fun _ _ after => after)
  rintro b s' ⟨known, after⟩
  exact rest b known base s' after

theorem Quiet.enters {input : List Tree} {x : Parse β} {f : β → Parse α}
    {items : α → List Tree} {told : α → Prop} (quiet : Quiet x)
    (rest : ∀ b, Enters offers scopes input (f b) items told) :
    Enters offers scopes input (x >>= f) items told :=
  quiet.gives.yields.enters fun b _ => rest b

theorem enters_throw {input : List Tree} {d : Diagnostic} {items : α → List Tree}
    {told : α → Prop} : Enters offers scopes input (throw d) items told :=
  fun _ _ at_ => ends_throw at_.nil

theorem enters_ite {input : List Tree} {c : Prop} [Decidable c] {x y : Parse α}
    {items : α → List Tree} {told : α → Prop} (yes : Enters offers scopes input x items told)
    (no : Enters offers scopes input y items told) :
    Enters offers scopes input (if c then x else y) items told := by
  split
  · exact yes
  · exact no

theorem agrees_declared {layout : List Slot} (laid : Laid offers layout s) (name : String)
    (kind : Kind) (writable : Bool) :
    Agrees (match s.scopes with
      | [] => []
      | scope :: outer => ((name, ⟨s.frameSize, kind, writable⟩) :: scope) :: outer)
      (layout ++ [⟨name, kind, writable⟩]) := by
  have old := laid.agrees.mono (List.prefix_append layout [⟨name, kind, writable⟩])
  -- The new local has the slot behind the layout; the old ones keep theirs.
  cases scopes_eq : s.scopes with
  | nil => simp [Agrees]
  | cons scope outer =>
      rw [scopes_eq] at old
      intro inner inside e entry
      rcases List.mem_cons.mp inside with rfl | outside
      · rcases List.mem_cons.mp entry with rfl | before
        · simp [← laid.size]
        · exact old scope (List.mem_cons_self ..) e before
      · exact old inner (List.mem_cons_of_mem _ outside) e entry

theorem Laid.declared {layout : List Slot} (laid : Laid offers layout s) {name : String}
    {kind : Kind} {writable : Bool} (granted : offers (.declare name writable)) {slot : Nat}
    (done : declareLocal name kind writable s = .ok slot s') :
    Laid offers (layout ++ [⟨name, kind, writable⟩]) s' := by
  cases done
  exact {
    size := by simp [laid.size]
    agrees := agrees_declared laid name kind writable
    granted := by simpa [or_imp, forall_and] using ⟨laid.granted, granted⟩
    ahead := laid.ahead }

theorem enters_declare (parts : List Tree) (shape : Shape) {name : String} {writable : Bool}
    (granted : offers (.declare name writable)) :
    Enters offers scopes parts
      (do return scalarNode (.declare (← declareLocal name shape.kind writable) shape parts))
      (fun n => [n.tree]) Right := by
  rintro base s ⟨layout, grown, laid, scopes_eq, built, spread⟩
  have slot_eq : s.frameSize = layout.length := laid.size.symm
  refine ⟨rfl, _, grown.trans (List.prefix_append _ _), laid.declared granted rfl, ?_, ?_, ?_, ?_⟩
  · dsimp only
    rw [← scopes_eq]
    cases s.scopes <;> rfl
  · dsimp only [slots]
    rw [← scopes_eq]
    cases s.scopes with
    | nil => simp
    | cons scope outer => simp [declares, scalarNode]
  · intro before t after split
    obtain ⟨rfl, rfl, rfl⟩ : before = [] ∧ t = .declare s.frameSize shape parts ∧ after = [] := by
      cases before <;> simp_all [scalarNode]
    refine .declare (by simp [slot_eq]) fun part inside => ?_
    exact (built part inside).mono (fun _ => id) (List.prefix_append _ _) (by simp)
  · simpa [slot_eq, scalarNode] using Spread.declaration spread grown.length_le

section

variable (source : Source) {expression : Parse Typed}

/-- A declaration of a name that is granted. -/
theorem ends_declaration (reads : Reads offers expression) {constant : Bool}
    (at_ : At offers scopes base [] s) (names : Names offers constant s) :
    Ends (declaration source expression constant) s
      (fun n s' => Right n ∧ Listing offers scopes base [n.tree] s')
      fun _ s' => At offers scopes base [] s' := by
  apply at_.before (quiet_advance source) (ends_advance source s)
  intro first s₁ advanced at₁
  have named : Named offers constant s₁ := by
    cases first with
    | some t => exact advanced.2.named names
    | none => exact (advanced (.word "var")).named names
  apply at₁.before (quiet_position source) (idle_position source s₁)
  intro here s₂ looked at₂
  apply at₂.before (quiet_advance source) (ends_advance source s₂)
  intro found s₃ advanced at₃
  split
  · next name =>
      have granted : offers (.declare name !constant) := looked.named named name _ advanced.1
      refine Enters.ends (enters_ite enters_throw ?_) at₃
      apply (quiet_declaredHere name).enters
      intro _
      apply enters_ite enters_throw
      apply (yields_initialValue source reads name constant here).enters
      intro declared _
      exact enters_declare declared.2 declared.1 granted
  · exact ends_throw at₃

theorem ends_statement (reads : Reads offers expression) (at_ : At offers scopes base [] s)
    (calm : Calm offers s) :
    Ends (statement source expression) s
      (fun n s' => Right n ∧ Listing offers scopes base [n.tree] s')
      fun _ s' => At offers scopes base [] s' := by
  apply at_.before (quiet_checkWord source _) (ends_checkWord source _ s)
  rintro plain s₁ ⟨looked, head⟩ at₁
  have calm₁ := looked.promised calm
  split
  · next var => exact ends_declaration source reads at₁ (calm₁.names (head var))
  · apply at₁.before (quiet_eatWord source _) (ends_eatWord source _ s₁)
    intro taken s₂ ended at₂
    split
    · next const =>
        rw [if_pos const] at ended
        apply at₂.before (quiet_checkWord source _) (ends_checkWord source _ s₂)
        rintro behind s₃ ⟨looked, head⟩ at₃
        split
        · next var =>
            have promised : Promised offers true s₃ := looked.promised (ended.promised calm₁)
            exact ends_declaration source reads at₃ (promised.names (head var))
        · exact at₃.before (quiet_position source) ends_true fun _ _ _ at₄ => ends_throw at₄
    · exact (reads scopes [] base s₂ at₂).mono (fun _ _ after => ⟨after.1, At.single after.2⟩)
        fun _ _ after => after

/-! ### Lists of statements -/

theorem ends_attempt {x : Parse α} {ok : α → State → Prop} {bad : Diagnostic → State → Prop}
    {ended : Except Diagnostic α → State → Prop} {never : Diagnostic → State → Prop}
    (ends : Ends x s ok bad) (fine : ∀ a s, ok a s → ended (.ok a) s)
    (failed : ∀ d s, bad d s → ended (.error d) s) : Ends (attempt x) s ended never := by
  unfold Ends attempt at *
  cases end_eq : x s with
  | ok a s' =>
      rw [end_eq] at ends
      exact fine a s' ends
  | error d s' =>
      rw [end_eq] at ends
      exact failed d s' ends

/-- Whatever was read into the innermost scope. -/
def Inner (offers : Grant → Prop) (scopes : List Scope) (base : List Slot) (s : State) : Prop :=
  ∃ layout, base <+: layout ∧ Laid offers layout s ∧ s.scopes.drop 1 = scopes.drop 1

theorem Listing.inner {items : List Tree} (listing : Listing offers scopes base items s) :
    Inner offers scopes base s := by
  obtain ⟨layout, grown, laid, outer, -⟩ := listing
  exact ⟨layout, grown, laid, outer⟩

/-- A part that reads no piece, with what is told of how it ends. -/
theorem Listing.before {x : Parse β} {f : β → Parse α} {items : List Tree}
    {known : β → State → Prop} {failed : Diagnostic → State → Prop} {ok : α → State → Prop}
    (listing : Listing offers scopes base items s) (quiet : Quiet x) (ends : Ends x s known failed)
    (rest : ∀ b s', known b s' → Listing offers scopes base items s' →
      Ends (f b) s' ok fun _ s' => Inner offers scopes base s') :
    Ends (x >>= f) s ok fun _ s' => Inner offers scopes base s' :=
  quiet.ends ends (fun b s' same told => rest b s' told (listing.same same))
    fun _ _ same => (listing.same same).inner

theorem quiet_atStop (stop : Stop) : Quiet (atStop source stop) :=
  (quiet_peek source).bind fun found => by
    cases found with
    | none => exact quiet_pure true
    | some t => cases stop <;> exact quiet_pure _

theorem quiet_separated (stop : Stop) : Quiet (separated source stop) :=
  quiet_get.bind fun _ => quiet_ite (quiet_pure _) <|
    (quiet_eat source _).bind fun _ => quiet_ite (quiet_pure _) (quiet_atStop source stop)

theorem quiet_recover (d : Diagnostic) : Quiet (recover source d) :=
  (quiet_record source d).bind fun _ => quiet_synchronize source _ _

/-- The trees of statements that are kept newest first. -/
theorem ends_statements (reads : Reads offers expression) (stop : Stop) (fuel : Nat)
    {items : List Typed} (rights : ∀ n ∈ items, Right n)
    (listing : Listing offers scopes base (items.reverse.map Typed.tree) s)
    (calm : Calm offers s) :
    Ends (statements source expression stop fuel items) s
      (fun all s' => (∀ n ∈ all, Right n) ∧ Listing offers scopes base (all.map Typed.tree) s')
      fun _ s' => Inner offers scopes base s' := by
  have kept : ∀ n ∈ items.reverse, Right n :=
    fun n inside => rights n (List.mem_reverse.mp inside)
  -- The list read so far is the invariant: a faulty statement leaves it as it was, only the
  -- layout may have grown. No statement begins behind a `const`.
  induction fuel generalizing items s with
  | zero =>
      rw [statements]
      exact listing.before (quiet_record source _) ends_true fun _ s' _ after =>
        ends_pure ⟨kept, after⟩
  | succ fuel ih =>
      rw [statements]
      apply listing.before (quiet_eatAll source _ _) (calm_eatAll _ s calm)
      intro _ s₁ calm₁ listing₁
      apply listing₁.before (quiet_atStop source stop) (ends_atStop stop s₁)
      rintro stopped s₂ ⟨looked, -⟩ listing₂
      cases stopped with
      | true => exact ends_pure ⟨kept, listing₂⟩
      | false =>
          obtain ⟨layout, grown, here, goes⟩ := listing₂.further
          have read := ends_statement source reads here (looked.promised calm₁)
          refine ends_bind (ends_attempt read ?_ ?_)
          · rintro n s₃ ⟨right, entered⟩
            have listing₃ :
                Listing offers scopes base ((n :: items).reverse.map Typed.tree) s₃ := by
              simpa using goes _ _ entered
            have rights₃ : ∀ m ∈ n :: items, Right m := List.forall_mem_cons.mpr ⟨right, rights⟩
            have kept₃ : ∀ m ∈ (n :: items).reverse, Right m :=
              fun m inside => rights₃ m (List.mem_reverse.mp inside)
            apply listing₃.before (quiet_separated source stop) (ends_separated stop listing₃.ahead)
            intro split s₄ behind listing₄
            cases split with
            | true => exact ih rights₃ listing₄ (behind rfl) kept₃
            | false =>
                apply listing₄.before (quiet_position source) ends_true
                intro _ s₅ _ listing₅
                apply listing₅.before (quiet_peek source) ends_true
                intro _ s₆ _ listing₆
                exact listing₆.before (quiet_recover source _) (ends_recover _ listing₆.ahead)
                  fun _ s₇ calm₇ listing₇ => ih rights₃ listing₇ calm₇ kept₃
          · intro d s₃ failed
            have listing₃ : Listing offers scopes base (items.reverse.map Typed.tree) s₃ := by
              simpa using goes [] s₃ failed.empty
            exact listing₃.before (quiet_recover source d) (ends_recover d listing₃.ahead)
              fun _ s₄ calm₄ listing₄ => ih rights listing₄ calm₄ kept

theorem sequence_right {items : List Typed} (rights : ∀ n ∈ items, Right n) :
    Right (sequence items) := by
  match items with
  | [] => rfl
  | [single] => exact rights single (by simp)
  | first :: second :: rest =>
      -- Two or more: the sequence has the kind of the last one.
      have long : second :: rest ≠ [] := by simp
      obtain ⟨front, last, split⟩ : ∃ front last, first :: second :: rest = front ++ [last] :=
        ⟨_, _, (List.dropLast_concat_getLast (by simp)).symm⟩
      have lasts : (sequence (first :: second :: rest)).kind = last.kind := by
        simp only [sequence, split, List.getLast?_append]
        rfl
      rw [Right, lasts, rights last (by simp [split])]
      simp only [sequence, split, List.map_append, List.map_cons, List.map_nil]
      rw [Tree.kind, lastKind_append]

/-- A list of statements stands for one node, from where the list began. -/
theorem Listing.node {items : List Typed}
    (listing : Listing offers scopes base (items.map Typed.tree) s) :
    ∃ layout, base <+: layout ∧ Laid offers layout s ∧ s.scopes.drop 1 = scopes.drop 1 ∧
      Built offers layout (slots scopes) (sequence items).tree ∧
      Spread base.length layout.length [(sequence items).tree] := by
  obtain ⟨layout, grown, laid, outer, -, built, spread⟩ := listing
  refine ⟨layout, grown, laid, outer, ?_, ?_⟩
  · match items with
    | [] => exact .null
    | [single] => simpa [sequence] using built [] single.tree [] rfl
    | first :: second :: rest => exact .sequence built
  · match items with
    | [] => exact spread.node rfl (List.Sublist.refl _)
    | [single] => exact spread
    | first :: second :: rest => exact spread.node rfl (List.Sublist.refl _)

/-! ### Scopes of their own -/

/-- `pieces` do not depend on the innermost scope they were read in. -/
def Enclosed (offers : Grant → Prop) (scopes : List Scope) (base : List Slot)
    (pieces : List Tree) (s : State) : Prop :=
  ∃ layout, base <+: layout ∧ Laid offers layout s ∧ s.scopes.drop 1 = scopes ∧
    (∀ t ∈ pieces, Built offers layout (slots scopes) t) ∧
    Spread base.length layout.length pieces

theorem Enclosed.leave {pieces : List Tree} (enclosed : Enclosed offers scopes base pieces s) :
    At offers scopes base pieces { s with scopes := s.scopes.drop 1 } := by
  obtain ⟨layout, grown, laid, outer, built, spread⟩ := enclosed
  refine ⟨layout, grown, { laid with agrees := fun scope inside => ?_ }, outer, built, spread⟩
  exact laid.agrees scope (List.mem_of_mem_drop inside)

theorem At.enter (at_ : At offers scopes base [] s) :
    At offers ([] :: scopes) base [] { s with scopes := [] :: s.scopes } := by
  obtain ⟨layout, grown, laid, scopes_eq, -, spread⟩ := at_
  refine ⟨layout, grown, { laid with agrees := fun scope inside => ?_ }, by rw [scopes_eq],
    by simp, spread⟩
  rcases List.mem_cons.mp inside with rfl | outside
  · simp
  · exact laid.agrees scope outside

theorem Inner.enclosed (inner : Inner offers ([] :: scopes) base s) :
    Enclosed offers scopes base [] s := by
  obtain ⟨layout, grown, laid, outer⟩ := inner
  exact ⟨layout, grown, laid, outer, by simp, Spread.nil⟩

theorem calmly_inScope {x : Parse α} {pieces : α → List Tree} {told : α → Prop}
    (inner : ∀ base s, At offers ([] :: scopes) base [] s → Calm offers s →
      Ends x s (fun a s' => told a ∧ Enclosed offers scopes base (pieces a) s')
        fun _ s' => Inner offers ([] :: scopes) base s') :
    Calmly offers scopes [] (inScope x) pieces told := by
  intro base s at_ calm
  have ends := inner base _ at_.enter calm
  unfold Ends inScope at *
  cases end_eq : x { s with scopes := [] :: s.scopes } with
  | ok a s' =>
      rw [end_eq] at ends
      exact ⟨ends.1, ends.2.leave⟩
  | error d s' =>
      rw [end_eq] at ends
      exact ends.enclosed.leave

theorem Listing.enclosed {items : List Typed}
    (listing : Listing offers ([] :: scopes) base (items.map Typed.tree) s) :
    Enclosed offers scopes base [(sequence items).tree] s := by
  obtain ⟨layout, grown, laid, outer, built, spread⟩ := listing.node
  refine ⟨layout, grown, laid, outer, fun t inside => ?_, spread⟩
  obtain rfl : t = (sequence items).tree := by simpa using inside
  simpa [slots] using built

theorem calmly_block (reads : Reads offers expression) (stop : Stop) :
    Calmly offers scopes [] (block source expression stop)
      (fun items => [(sequence items).tree]) fun items => ∀ n ∈ items, Right n := by
  apply calmly_inScope
  intro base s at_ calm
  have none : ∀ n ∈ ([] : List Typed), Right n := by simp
  have listed := ends_statements source reads stop source.allowance none at_.empty calm
  exact listed.mono (fun _ _ after => ⟨after.1, after.2.enclosed⟩) fun _ _ after => after

end

end MathScript.Parse
