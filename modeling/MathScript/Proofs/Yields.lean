import MathScript.Proofs.Heights
import MathScript.Proofs.Reading
import MathScript.Proofs.Spread
import MathScript.Proofs.Steered

/-!
What a part of a text yields. The pieces read so far are built against a layout that agrees
with the scopes, and their declarations are spread over the slots the frame has got since the
part began. A part takes the pieces it is handed and gives those of its result; what it is
handed from outside goes along unchanged.
-/

namespace MathScript.Parse

open Tree

/-- The slots of all locals of the scopes. -/
def slots (scopes : List Scope) : List Nat := scopes.flatten.map fun e => e.2.slot

/-- Every local is in the layout as it is in its scope. -/
def Agrees (scopes : List Scope) (layout : List Slot) : Prop :=
  ∀ scope ∈ scopes, ∀ e ∈ scope, layout[e.2.slot]? = some ⟨e.1, e.2.kind, e.2.writable⟩

/-- All that was declared and all that is still ahead is granted. -/
structure Laid (offers : Grant → Prop) (layout : List Slot) (s : State) : Prop where
  size : layout.length = s.frameSize
  agrees : Agrees s.scopes layout
  granted : ∀ slot ∈ layout, offers (.declare slot.name slot.writable)
  ahead : Ahead offers s

/-- `pieces` were read while the layout grew from `base`. -/
def At (offers : Grant → Prop) (scopes : List Scope) (base : List Slot) (pieces : List Tree)
    (s : State) : Prop :=
  ∃ layout, base <+: layout ∧ Laid offers layout s ∧ s.scopes = scopes ∧
    (∀ t ∈ pieces, Built offers layout (slots scopes) t) ∧
      Spread base.length layout.length pieces

/-- From the pieces `input` on, the part yields `pieces` and what is told of its result. -/
def Yields {α : Type} (offers : Grant → Prop) (scopes : List Scope) (input : List Tree)
    (x : Parse α) (pieces : α → List Tree) (told : α → Prop) : Prop :=
  ∀ base s, At offers scopes base input s →
    Ends x s (fun a s' => told a ∧ At offers scopes base (pieces a) s')
      fun _ s' => At offers scopes base [] s'

/-- The same of a part that is read where no `const` stands in front. -/
def Calmly {α : Type} (offers : Grant → Prop) (scopes : List Scope) (input : List Tree)
    (x : Parse α) (pieces : α → List Tree) (told : α → Prop) : Prop :=
  ∀ base s, At offers scopes base input s → Calm offers s →
    Ends x s (fun a s' => told a ∧ At offers scopes base (pieces a) s')
      fun _ s' => At offers scopes base [] s'

/-- A part that reads no piece, with what is told of its result. -/
def Gives {α : Type} (x : Parse α) (told : α → Prop) : Prop :=
  ∀ s, Ends x s (fun a s' => Same s s' ∧ told a) fun _ s' => Same s s'

variable {offers : Grant → Prop} {scopes : List Scope} {base : List Slot} {α β : Type}

theorem Laid.same {layout : List Slot} {s s' : State} (laid : Laid offers layout s)
    (same : Same s s') : Laid offers layout s' where
  size := laid.size.trans same.frameSize.symm
  agrees := same.scopes ▸ laid.agrees
  granted := laid.granted
  ahead := same.ahead offers laid.ahead

theorem Agrees.mono {layout layout' : List Slot} (agrees : Agrees scopes layout)
    (grown : layout <+: layout') : Agrees scopes layout' :=
  fun scope inside e entry => getElem?_grown grown (agrees scope inside e entry)

namespace At

variable {input pieces : List Tree} {s s' : State}

/-- Only scopes, the frame and what is ahead matter. -/
theorem same (at_ : At offers scopes base pieces s) (same : Same s s') :
    At offers scopes base pieces s' := by
  obtain ⟨layout, grown, laid, scopes_eq, built, spread⟩ := at_
  exact ⟨layout, grown, laid.same same, same.scopes.trans scopes_eq, built, spread⟩

theorem fewer (at_ : At offers scopes base input s) (less : pieces.Sublist input) :
    At offers scopes base pieces s := by
  obtain ⟨layout, grown, laid, scopes_eq, built, spread⟩ := at_
  exact ⟨layout, grown, laid, scopes_eq, fun t inside => built t (less.subset inside),
    spread.of_sublist (less.flatMap declared)⟩

theorem ahead (at_ : At offers scopes base pieces s) : Ahead offers s := by
  obtain ⟨layout, -, laid, -⟩ := at_
  exact laid.ahead

theorem nil (at_ : At offers scopes base input s) : At offers scopes base [] s :=
  at_.fewer (List.nil_sublist input)

theorem perm (at_ : At offers scopes base input s) (same : input.Perm pieces) :
    At offers scopes base pieces s := by
  obtain ⟨layout, grown, laid, scopes_eq, built, spread⟩ := at_
  exact ⟨layout, grown, laid, scopes_eq, fun t inside => built t (same.mem_iff.mpr inside),
    spread.perm same⟩

end At

theorem gives_pure {a : α} {told : α → Prop} (known : told a) : Gives (pure a) told :=
  fun s => ends_pure ⟨Same.refl s, known⟩

theorem gives_fail (source : Source) (position : Nat) (cause : Cause) {told : α → Prop} :
    Gives (fail source position cause) told :=
  fun s => ends_throw (Same.refl s)

theorem Quiet.gives {x : Parse α} (quiet : Quiet x) : Gives x fun _ => True :=
  fun s => (quiet s s (Same.refl s)).mono (fun _ _ same => ⟨same, trivial⟩) fun _ _ same => same

theorem Gives.bind {x : Parse α} {f : α → Parse β} {told : α → Prop} {told' : β → Prop}
    (first : Gives x told) (rest : ∀ a, told a → Gives (f a) told') : Gives (x >>= f) told' := by
  intro s
  refine ends_bind ((first s).mono ?_ fun _ _ same => same)
  rintro a s' ⟨same, known⟩
  exact (rest a known s').mono (fun _ _ after => ⟨same.trans after.1, after.2⟩)
    fun _ _ after => same.trans after

section

variable {input : List Tree} {pieces : α → List Tree} {told : α → Prop}

theorem Gives.yields {x : Parse α} (gives : Gives x told) :
    Yields offers scopes input x (fun _ => input) told :=
  fun _ s at_ => (gives s).mono (fun _ _ after => ⟨after.2, at_.same after.1⟩)
    fun _ _ same => (at_.same same).nil

theorem yields_pure {a : α} (known : told a)
    (turned : ∀ base s, At offers scopes base input s → At offers scopes base (pieces a) s) :
    Yields offers scopes input (pure a) pieces told :=
  fun base s at_ => ends_pure ⟨known, turned base s at_⟩

theorem yields_throw {d : Diagnostic} : Yields offers scopes input (throw d) pieces told :=
  fun _ _ at_ => ends_throw at_.nil

theorem Yields.bind {x : Parse α} {f : α → Parse β} {pieces' : β → List Tree}
    {told' : β → Prop} (first : Yields offers scopes input x pieces told)
    (rest : ∀ a, told a → Yields offers scopes (pieces a) (f a) pieces' told') :
    Yields offers scopes input (x >>= f) pieces' told' := by
  intro base s at_
  refine ends_bind ((first base s at_).mono ?_ fun _ _ after => after)
  rintro a s' ⟨known, after⟩
  exact rest a known base s' after

theorem Quiet.before {x : Parse β} {f : β → Parse α} (quiet : Quiet x)
    (rest : ∀ b, Yields offers scopes input (f b) pieces told) :
    Yields offers scopes input (x >>= f) pieces told :=
  quiet.gives.yields.bind fun b _ => rest b

theorem yields_ite {c : Prop} [Decidable c] {x y : Parse α}
    (yes : Yields offers scopes input x pieces told)
    (no : Yields offers scopes input y pieces told) :
    Yields offers scopes input (if c then x else y) pieces told := by
  split
  · exact yes
  · exact no

theorem Yields.mono {x : Parse α} {pieces' : α → List Tree} {told' : α → Prop}
    (yields : Yields offers scopes input x pieces told) (weaker : ∀ a, told a → told' a)
    (turned : ∀ a base s, told a → At offers scopes base (pieces a) s →
      At offers scopes base (pieces' a) s) :
    Yields offers scopes input x pieces' told' :=
  fun base s at_ => (yields base s at_).mono
    (fun a s' after => ⟨weaker a after.1, turned a base s' after.1 after.2⟩) fun _ _ after => after

/-- What a part is handed from outside goes along. -/
theorem At.frame {x : Parse α} {outside : List Tree} {s : State}
    (at_ : At offers scopes base outside s)
    (ends : ∀ base, At offers scopes base [] s →
      Ends x s (fun a s' => told a ∧ At offers scopes base (pieces a) s')
        fun _ s' => At offers scopes base [] s') :
    Ends x s (fun a s' => told a ∧ At offers scopes base (outside ++ pieces a) s')
      fun _ s' => At offers scopes base [] s' := by
  obtain ⟨layout, grown, laid, scopes_eq, built, spread⟩ := at_
  have here : At offers scopes layout [] s :=
    ⟨layout, List.prefix_rfl, laid, scopes_eq, by simp, Spread.nil⟩
  -- The part runs from the layout it finds; what was built outside stays built as it grows.
  apply (ends layout here).mono
  · rintro a s' ⟨known, layout', further, laid', scopes_eq', built', spread'⟩
    refine ⟨known, layout', grown.trans further, laid', scopes_eq', fun t inside => ?_,
      spread.append spread' grown.length_le further.length_le⟩
    rcases List.mem_append.mp inside with left | right
    · exact (built t left).mono (fun _ => id) further (List.Subset.refl _)
    · exact built' t right
  · rintro d s' ⟨layout', further, laid', scopes_eq', -, -⟩
    exact ⟨layout', grown.trans further, laid', scopes_eq', by simp, Spread.nil⟩

theorem Yields.frame {x : Parse α} (yields : Yields offers scopes [] x pieces told)
    (outside : List Tree) :
    Yields offers scopes outside x (fun a => outside ++ pieces a) told :=
  fun _ s at_ => at_.frame fun base => yields base s

/-! ### Parts that are read calmly -/

theorem Yields.calmly {x : Parse α} (yields : Yields offers scopes input x pieces told) :
    Calmly offers scopes input x pieces told :=
  fun base s at_ _ => yields base s at_

theorem Calmly.frame {x : Parse α} (calmly : Calmly offers scopes [] x pieces told)
    (outside : List Tree) :
    Calmly offers scopes outside x (fun a => outside ++ pieces a) told :=
  fun _ s at_ calm => at_.frame fun base here => calmly base s here calm

theorem Calmly.bind {x : Parse α} {f : α → Parse β} {pieces' : β → List Tree}
    {told' : β → Prop} (first : Calmly offers scopes input x pieces told)
    (rest : ∀ a, told a → Yields offers scopes (pieces a) (f a) pieces' told') :
    Calmly offers scopes input (x >>= f) pieces' told' := by
  intro base s at_ calm
  refine ends_bind ((first base s at_ calm).mono ?_ fun _ _ after => after)
  rintro a s' ⟨known, after⟩
  exact rest a known base s' after

theorem calmly_ite {c : Prop} [Decidable c] {x y : Parse α}
    (yes : Calmly offers scopes input x pieces told)
    (no : Calmly offers scopes input y pieces told) :
    Calmly offers scopes input (if c then x else y) pieces told := by
  split
  · exact yes
  · exact no

/-- A part that reads no piece, with what is told of how it ends. -/
theorem At.before {x : Parse β} {f : β → Parse α} {s : State} {known : β → State → Prop}
    {failed : Diagnostic → State → Prop} {ok : α → State → Prop}
    (at_ : At offers scopes base input s) (quiet : Quiet x) (ends : Ends x s known failed)
    (rest : ∀ b s', known b s' → At offers scopes base input s' →
      Ends (f b) s' ok fun _ s' => At offers scopes base [] s') :
    Ends (x >>= f) s ok fun _ s' => At offers scopes base [] s' :=
  quiet.ends ends (fun b s' same told => rest b s' told (at_.same same))
    fun _ _ same => (at_.same same).nil

/-- What leaves `const` out does not change that. -/
theorem Quiet.calmly {x : Parse β} {f : β → Parse α} (quiet : Quiet x)
    (calm : Keeps (Calm offers) x) (rest : ∀ b, Calmly offers scopes input (f b) pieces told) :
    Calmly offers scopes input (x >>= f) pieces told :=
  fun base s at_ before => at_.before quiet (calm s before) fun b s' after at_ =>
    rest b base s' at_ after

/-- Behind a symbol that is expected the rest is read calmly. -/
theorem yields_expect (source : Source) {sym : Sym} {context : String} {f : Unit → Parse α}
    (rest : Calmly offers scopes input (f ()) pieces told) :
    Yields offers scopes input (expect source sym context >>= f) pieces told :=
  fun base _ at_ => at_.before (quiet_expect source sym context) (ends_expect at_.ahead)
    fun _ s' calm at_ => rest base s' at_ calm

end

/-! ### Nodes of pieces -/

/-- A binding that is in scope in every layout the scopes agree with. -/
def Known (offers : Grant → Prop) (scopes : List Scope) (b : Binding) : Prop :=
  ∀ layout, Agrees scopes layout → b.InScope offers layout (slots scopes)

/-- A node that is built if the pieces are, and declares no more than they do. -/
structure Formed (offers : Grant → Prop) (scopes : List Scope) (pieces : List Tree) (t : Tree) :
    Prop where
  built : ∀ layout, Agrees scopes layout → (∀ p ∈ pieces, Built offers layout (slots scopes) p) →
    Built offers layout (slots scopes) t
  slots : t.declared.Sublist (pieces.flatMap declared)

/-- Such a node that is steered wherever the pieces are, and one level above them. -/
structure Made (offers : Grant → Prop) (scopes : List Scope) (pieces : List Tree)
    (t : Tree) : Prop extends Formed offers scopes pieces t where
  steered : ∀ level, (∀ p ∈ pieces, Steered level p) → Steered level t
  undeclared : t.declares = []
  within : ∀ {P : Tree → Prop} {counted : Bool} {bound : Nat}, P t →
    (∀ p ∈ pieces, Within P counted bound p) → Within P counted (bound + t.gain counted) t

theorem formed_of_parts {pieces : List Tree} {t : Tree}
    (built : ∀ layout, Agrees scopes layout →
      (∀ p ∈ pieces, Built offers layout (slots scopes) p) → Built offers layout (slots scopes) t)
    (undeclared : t.declares = []) (fewer : t.parts.Sublist pieces) :
    Formed offers scopes pieces t where
  built := built
  slots := by
    rw [declared_eq, undeclared, List.nil_append]
    exact fewer.flatMap declared

theorem made_of_parts {pieces : List Tree} {t : Tree}
    (built : ∀ layout, Agrees scopes layout →
      (∀ p ∈ pieces, Built offers layout (slots scopes) p) → Built offers layout (slots scopes) t)
    (undeclared : t.declares = []) (stays : t.exits = false) (hands : t.HandsBack)
    (gains : ∀ counted, t.gain counted = t.rise counted) (fewer : t.parts.Sublist pieces) :
    Made offers scopes pieces t where
  toFormed := formed_of_parts built undeclared fewer
  steered level pieces := .of_children (by simp [stays]) hands fun child member =>
    pieces child (fewer.subset (t.children_subset_parts member))
  undeclared := undeclared
  within own pieces := .node own
    (fun child member => pieces child (fewer.subset (t.children_subset_parts member)))
    (Nat.le_of_eq (congrArg _ (gains _).symm))

theorem At.node {outside pieces : List Tree} {t : Tree} {s : State}
    (at_ : At offers scopes base (outside ++ pieces) s) (formed : Formed offers scopes pieces t) :
    At offers scopes base (outside ++ [t]) s := by
  obtain ⟨layout, grown, laid, scopes_eq, built, spread⟩ := at_
  refine ⟨layout, grown, laid, scopes_eq, fun u inside => ?_, spread.of_sublist ?_⟩
  · rcases List.mem_append.mp inside with old | new
    · exact built u (List.mem_append_left _ old)
    · obtain rfl : u = t := by simpa using new
      exact formed.built layout (scopes_eq ▸ laid.agrees) fun p piece =>
        built p (List.mem_append_right _ piece)
  · rw [List.flatMap_append, List.flatMap_append, List.flatMap_singleton]
    exact formed.slots.append_left _

/-- A node with its own kind. -/
def Right (n : Typed) : Prop := n.kind = n.tree.kind

/-- A part that reads one node, wherever it stands. -/
def Reads (offers : Grant → Prop) (x : Parse Typed) : Prop :=
  ∀ scopes input, Yields offers scopes input x (fun n => input ++ [n.tree]) Right

/-- Puts a node together from the pieces read last. -/
theorem yields_node {outside pieces : List Tree} {x : Parse Typed}
    (gives : Gives x fun n => Right n ∧ Made offers scopes pieces n.tree) :
    Yields offers scopes (outside ++ pieces) x (fun n => outside ++ [n.tree]) Right :=
  gives.yields.mono (fun _ told => told.1) fun _ _ _ told at_ => at_.node told.2.toFormed

theorem yields_formed {outside pieces : List Tree} {n : Typed} (right : Right n)
    (formed : Formed offers scopes pieces n.tree) :
    Yields offers scopes (outside ++ pieces) (pure n) (fun n => outside ++ [n.tree]) Right :=
  yields_pure right fun _ _ at_ => at_.node formed

theorem yields_leaf {outside : List Tree} {n : Typed} (right : Right n)
    (formed : Formed offers scopes [] n.tree) :
    Yields offers scopes outside (pure n) (fun n => outside ++ [n.tree]) Right := by
  have node : Yields offers scopes (outside ++ []) (pure n) (fun n => outside ++ [n.tree]) Right :=
    yields_formed right formed
  simpa using node

theorem reads_of_base {x : Parse Typed}
    (yields : ∀ scopes, Yields offers scopes [] x (fun n => [n.tree]) Right) : Reads offers x :=
  fun scopes input => (yields scopes).frame input

end MathScript.Parse
