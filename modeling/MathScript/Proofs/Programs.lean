import MathScript.Proofs.Names
import MathScript.Proofs.Soundness

/-!
Whole programs. What a text is read as is built against the layout of its frame: the parameters
take the first slots, every declaration takes one slot of its own after them, and the functions
that are called are those of the table.
-/

namespace MathScript

namespace Parse

variable {offers : Grant → Prop} (source : Source)

theorem reads_prefixed {inner : Parse Typed} (inners : Reads offers inner)
    (granted : ∀ g, source.table.Grants g → offers g) :
    Reads offers (prefixed source inner) := by
  intro scopes input
  have operands := fun input => reads_chain source inners unaryPrecedence scopes input
  apply (quiet_position source).before
  intro here
  apply (quiet_peek source).before
  intro found
  have negation : Yields offers scopes input (do
      let _ ← advance source
      let node ← chain source inner unaryPrecedence
      let tree ← requireScalar source node here "operand of 'not'"
      return scalarNode (.apply .not [tree])) (fun n => input ++ [n.tree]) Right := by
    apply (quiet_advance source).before
    intro _
    apply (operands input).bind
    intro n _
    apply (gives_requireScalar source n here _).yields.bind
    intro tree tree_eq
    subst tree_eq
    exact yields_formed rfl (formed_apply trivial)
  split
  · apply (quiet_advance source).before
    intro _
    apply (operands input).bind
    intro n right
    by_cases string : n.kind = .string
    · simp only [string, if_true]
      exact yields_throw
    · simp only [string, if_false]
      exact yields_formed right (formed_apply ⟨n.tree, rfl, right ▸ string⟩)
  · apply (quiet_advance source).before
    intro _
    apply (operands input).bind
    intro n right
    exact yields_ite yields_throw (yields_pure right fun _ _ at_ => at_)
  · exact negation
  · exact negation
  · exact reads_primary source (reads_expression source inners) granted scopes input

theorem reads_operand
    (granted : ∀ g, source.table.Grants g → offers g) (levels : Nat) :
    Reads offers (operand source levels) := by
  -- An operand holds expressions of operands one level further in.
  induction levels with
  | zero =>
      intro scopes input
      exact (quiet_position source).before fun _ => yields_throw
  | succ levels ih => exact reads_prefixed source ih granted

/-- The scopes and the frame of a state fit together. -/
def State.Tidy (s : State) : Prop := ∃ layout, Laid (fun _ => True) layout s

/-- The kind the parser gives to a node is that of its tree. -/
theorem expression_kind (levels : Nat) {s : State} (tidy : s.Tidy) :
    Ends (expression source (operand source levels)) s
      (fun n s' => n.kind = n.tree.kind ∧ s'.Tidy) fun _ s' => s'.Tidy := by
  obtain ⟨layout, laid⟩ := tidy
  have reads : Reads (fun _ => True) (expression source (operand source levels)) :=
    reads_expression source (reads_operand source (fun _ _ => trivial) levels)
  have here : At (fun _ => True) s.scopes layout [] s :=
    ⟨layout, List.prefix_rfl, laid, rfl, by simp, Spread.nil⟩
  apply (reads s.scopes [] layout s here).mono
  · rintro n s' ⟨right, layout', -, laid', -⟩
    exact ⟨right, layout', laid'⟩
  · rintro d s' ⟨layout', -, laid', -⟩
    exact ⟨layout', laid'⟩

end Parse

open Parse Compile

/-- What the first slots of a frame are declared as. -/
def parameterLayout (params : List String) : List Slot :=
  params.map fun name => ⟨name, .scalar, true⟩

theorem mem_parameterScope {first : Nat} {params : List String} {e : String × Local}
    (inside : e ∈ parameterScope first params) :
    ∃ i, e.2.slot = first + i ∧
      (parameterLayout params)[i]? = some ⟨e.1, e.2.kind, e.2.writable⟩ := by
  induction params generalizing first with
  | nil => cases inside
  | cons name names ih =>
      rcases List.mem_cons.mp inside with rfl | rest
      · exact ⟨0, rfl, rfl⟩
      · obtain ⟨i, slot_eq, found⟩ := ih rest
        exact ⟨i + 1, by omega, by simpa [parameterLayout] using found⟩

/-- The names of a text with whether they may be written: its parameters, and what it declares. -/
def declaredNames (settings : Settings) (params : List String) (text : List Char) :
    List (String × Bool) :=
  params.map (fun name => (name, true)) ++
    declarations false (tokensOf (Lexeme.read settings.implicitMultiplication text))

/-- What is granted to a text with these names. -/
def Table.GrantsTo (table : Table) (names : List (String × Bool)) (g : Grant) : Prop :=
  table.Grants g ∨ ∃ d ∈ names, g = .declare d.1 d.2

section

variable {offers : Grant → Prop} {settings : Settings} {params : List String} {text : List Char}
  (declared : ∀ d ∈ declaredNames settings params text, offers (.declare d.1 d.2))

include declared

theorem start_calm : Calm offers (start settings params text) :=
  fun d inside => declared d (List.mem_append_right _ inside)

/-- The parameters are laid out before the first token. -/
theorem start_at :
    At offers [parameterScope 0 params] (parameterLayout params) []
      (start settings params text) := by
  have laid : Laid offers (parameterLayout params) (start settings params text) := {
    size := by simp [parameterLayout, start]
    agrees := fun scope inside e entry => by
      obtain rfl : scope = parameterScope 0 params := by simpa [start] using inside
      obtain ⟨i, slot_eq, found⟩ := mem_parameterScope entry
      rwa [slot_eq, Nat.zero_add]
    granted := fun slot inside => by
      obtain ⟨name, member, rfl⟩ := List.mem_map.mp inside
      exact declared (name, true) (List.mem_append_left _ (List.mem_map_of_mem member))
    ahead := (start_calm declared).ahead fun _ => rfl }
  exact ⟨_, List.prefix_rfl, laid, rfl, by simp, Spread.nil⟩

end

theorem parameter_slots (params : List String) :
    slots [parameterScope 0 params] ⊆ List.range params.length := by
  intro i inside
  obtain ⟨e, entry, rfl⟩ := List.mem_map.mp inside
  obtain ⟨j, slot_eq, found⟩ := mem_parameterScope (by simpa using entry)
  obtain ⟨bound, -⟩ := List.getElem?_eq_some_iff.mp found
  rw [slot_eq, Nat.zero_add]
  simpa [parameterLayout] using bound

/-- What the statements of a text come to, when the last of them is read. -/
theorem ends_program {offers : Grant → Prop} (source : Source) (settings : Settings)
    (params : List String) (granted : ∀ g,
      source.table.GrantsTo (declaredNames settings params source.text) g → offers g) :
    Ends (program source) (start settings params source.text)
      (fun items s => (∀ n ∈ items, Right n) ∧ Listing offers [parameterScope 0 params]
        (parameterLayout params) (items.map Typed.tree) s)
      fun _ s => Inner offers [parameterScope 0 params] (parameterLayout params) s := by
  have operands := reads_operand source (fun g known => granted g (.inl known))
    source.limits.nesting
  have declared : ∀ d ∈ declaredNames settings params source.text, offers (.declare d.1 d.2) :=
    fun d inside => granted _ (.inr ⟨d, inside, rfl⟩)
  have none : ∀ n ∈ ([] : List Typed), Right n := by simp
  exact ends_statements source (reads_expression source operands) .input source.allowance none
    (start_at declared).empty (start_calm declared)

theorem compile_accepted {table : Table} {settings : Settings} {params : List String}
    {text : String} (accepted : (compile table settings params text).toOption.isSome = true) :
    ∃ p, compile table settings params text = .ok p := by
  cases compiled : compile table settings params text with
  | error ds =>
      rw [compiled] at accepted
      cases accepted
  | ok p => exact ⟨p, rfl⟩

theorem parse_ok {table : Table} {settings : Settings} {params : List String} {text : String}
    {p : Program} (parsed : parse table settings params text = .ok p) :
    ∃ source items s, source.table = table ∧ source.text = text.toList ∧
      source.limits = settings.limits ∧
        program source (start settings params source.text) = .ok items s ∧
          p = ⟨(sequence items).tree, s.frameSize⟩ := by
  unfold parse at parsed
  dsimp only at parsed
  split at parsed
  · cases parsed
  · next items s end_eq =>
      split at parsed
      · exact ⟨_, items, s, rfl, rfl, rfl, end_eq, (Except.ok.inj parsed).symm⟩
      · cases parsed

theorem parse_built {table : Table} {settings : Settings} {params : List String} {text : String}
    {p : Program} (parsed : parse table settings params text = .ok p) :
    p.BuiltFor (table.GrantsTo (declaredNames settings params text.toList)) params.length ∧
      p.tree.declared.Nodup := by
  obtain ⟨source, items, s, rfl, text_eq, -, end_eq, rfl⟩ := parse_ok parsed
  have ends := ends_program source settings params fun _ => id
  unfold Ends at ends
  rw [end_eq, text_eq] at ends
  obtain ⟨layout, grown, laid, -, built, spread⟩ := ends.2.node
  -- The frame is laid out from the parameters on, which are in use from the start.
  constructor
  · refine ⟨layout, laid.size, fun i bound => ?_, laid.granted, ?_⟩
    · exact kind_grown grown (by simp [parameterLayout, bound])
    · exact built.mono (fun _ => id) List.prefix_rfl (parameter_slots params)
  · simpa using spread.nodup

end MathScript
