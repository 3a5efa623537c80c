import MathScript.Parse.Node
import MathScript.Proofs.Yields

/-!
Nodes put together from parts. Every function that takes no token gives a node with its own
kind, built from the pieces it was handed.
-/

namespace MathScript.Parse

open Tree

variable {offers : Grant → Prop} {scopes : List Scope} (source : Source)

theorem gives_requireScalar (node : Typed) (position : Nat) (what : String) :
    Gives (requireScalar source node position what) fun t => t = node.tree := by
  unfold requireScalar
  split
  · exact gives_pure rfl
  · exact gives_fail source _ _

/-! ### Targets -/

/-- What is read as a node may be written as a target. -/
structure Aims (tree : Tree) (t : Target Tree) : Prop where
  built : ∀ {offers layout live}, Built offers layout live tree →
    t.binding.InScope offers layout live ∧ t.Open ∧ ∀ i ∈ t.indices, Built offers layout live i
  slots : (t.parts.flatMap declared).Sublist tree.declared
  steered : ∀ {level}, Steered level tree → ∀ i ∈ t.indices, Steered level i
  within : ∀ {P counted bound}, Within P counted bound tree →
    ∃ below, below + 1 ≤ bound ∧ ∀ i ∈ t.indices, Within P counted below i

theorem aims_load {b : Binding} (writable : b.writable = true) : Aims (.load b) (.whole b) where
  built built := by
    cases built with
    | load scope => exact ⟨scope, writable, by simp [Target.indices]⟩
  slots := by simp [Target.parts, Target.indices]
  steered _ := by simp [Target.indices]
  within within := by
    obtain ⟨below, room, -⟩ := within.inner rfl
    exact ⟨below, room, by simp [Target.indices]⟩

theorem aims_element {b : Binding} {index : Tree} (writable : b.writable = true)
    (vector : b.kind = .vector) : Aims (.element b index) (.element b index) where
  built built := by
    cases built with
    | element scope _ inner =>
        exact ⟨scope, ⟨writable, vector⟩, by simpa [Target.indices] using inner⟩
  slots := by
    rw [declared_eq]
    exact List.Sublist.refl _
  steered steered := fun _ inside => steered.head inside
  within within := within.inner rfl

/-- The one index of an element stands for both bounds of the range. -/
theorem aims_character {b : Binding} {index : Tree} (writable : b.writable = true)
    (other : b.kind ≠ .vector) : Aims (.element b index) (.range b (some index) (some index)) where
  built built := by
    cases built with
    | element scope indexable inner =>
        -- An index reaches into a vector or a string only, so what is no vector is a string.
        have string : b.kind = .string := by
          cases kind_eq : b.kind <;> simp_all
        refine ⟨scope, ⟨writable, string⟩, fun i inside => ?_⟩
        obtain rfl : i = index := by simpa [Target.indices] using inside
        exact inner
  slots := by
    rw [declared_eq]
    simp [Target.parts, declares, Tree.parts, children]
  steered steered := fun i inside => by
    obtain rfl : i = index := by simpa [Target.indices] using inside
    exact steered.head (List.mem_singleton_self i)
  within within := by
    obtain ⟨below, room, inner⟩ := within.inner rfl
    refine ⟨below, room, fun i inside => ?_⟩
    obtain rfl : i = index := by simpa [Target.indices] using inside
    exact inner i (List.mem_singleton_self i)

theorem aims_slice {b : Binding} {first last : Option Tree} (writable : b.writable = true)
    (string : b.kind = .string) : Aims (.slice b first last) (.range b first last) where
  built built := by
    cases built with
    | slice scope _ firsts lasts =>
        refine ⟨scope, ⟨writable, string⟩, fun i inside => ?_⟩
        rcases List.mem_append.mp inside with left | right
        · exact firsts i left
        · exact lasts i right
  slots := by
    rw [declared_eq]
    exact (Target.parts_sublist _).flatMap declared
  steered steered := fun _ inside => steered.head inside
  within within := within.inner rfl

theorem gives_target (node : Typed) (position : Nat) :
    Gives (target source node position) (Aims node.tree) := by
  -- Whatever is aimed at, it is checked behind that whether it may be written.
  have checked : ∀ t : Target Tree, (t.binding.writable = true → Aims node.tree t) →
      Gives (if t.binding.writable then pure t
        else fail source position (.readOnly t.binding.name)) (Aims node.tree) := by
    intro t aims
    split
    · next writable => exact gives_pure (aims writable)
    · exact gives_fail source _ _
  have aimed : Gives (aim source node position) fun t =>
      t.binding.writable = true → Aims node.tree t := by
    unfold aim
    split
    · exact gives_fail source _ _
    · next b _ tree_eq =>
        rw [tree_eq]
        exact gives_pure aims_load
    · next b index tree_eq =>
        rw [tree_eq]
        split
        · next vector => exact gives_pure fun writable => aims_element writable vector
        · next other => exact gives_pure fun writable => aims_character writable other
    · next b first last tree_eq =>
        rw [tree_eq]
        split
        · next string => exact gives_pure fun writable => aims_slice writable string
        · exact gives_fail source _ _
    · exact gives_fail source _ _
  exact aimed.bind checked

theorem Aims.assign {left value : Tree} {t : Target Tree} (aims : Aims left t) (op : AssignOp) :
    Made offers scopes [left, value] (.assign t op value) where
  built layout _ pieces := by
    obtain ⟨scope, reach, indices⟩ := aims.built (pieces left (by simp))
    exact .assign scope reach indices (pieces value (by simp))
  slots := by
    rw [declared_eq]
    simpa [declares, Tree.parts] using aims.slots
  steered level pieces := by
    refine .of_children (by simp [exits]) trivial fun child member => ?_
    rcases List.mem_append.mp member with index | last
    · exact aims.steered (pieces left (by simp)) child index
    · exact pieces child (List.mem_cons_of_mem _ last)
  undeclared := rfl
  within own pieces := by
    obtain ⟨below, room, indices⟩ := aims.within (pieces left (by simp))
    refine .node own (fun child member => ?_) (Nat.le_refl _)
    rcases List.mem_append.mp member with index | last
    · exact (indices child index).mono (by omega)
    · exact pieces child (List.mem_cons_of_mem _ last)

theorem Aims.swap {left right : Tree} {l r : Target Tree} (lefts : Aims left l)
    (rights : Aims right r) (same : l.kind = r.kind) :
    Made offers scopes [left, right] (.swap l r) where
  built layout _ pieces := by
    obtain ⟨leftScope, leftReach, leftIndices⟩ := lefts.built (pieces left (by simp))
    obtain ⟨rightScope, rightReach, rightIndices⟩ := rights.built (pieces right (by simp))
    exact .swap leftScope rightScope leftReach rightReach same leftIndices rightIndices
  slots := by
    rw [declared_eq]
    simpa [declares, Tree.parts] using lefts.slots.append rights.slots
  steered level pieces := by
    refine .of_children (by simp [exits]) trivial fun child member => ?_
    rcases List.mem_append.mp member with first | second
    · exact lefts.steered (pieces left (by simp)) child first
    · exact rights.steered (pieces right (by simp)) child second
  undeclared := rfl
  within {P counted bound} own pieces := by
    -- What the sides have in brackets is a level below them, as it is below the swap.
    obtain ⟨below, room, leftIndices⟩ := lefts.within (pieces left (by simp))
    obtain ⟨below', room', rightIndices⟩ := rights.within (pieces right (by simp))
    have children : ∀ child ∈ (Tree.swap l r).children, Within P counted (bound - 1) child := by
      intro child member
      rcases List.mem_append.mp member with first | second
      · exact (leftIndices child first).mono (by omega)
      · exact (rightIndices child second).mono (by omega)
    exact .node own children (show bound - 1 + 1 ≤ bound by omega)

theorem gives_assignment (left : Typed) (op : AssignOp) (value : Typed) (position : Nat) :
    Gives (assignment source left op value position) fun n =>
      Right n ∧ Made offers scopes [left.tree, value.tree] n.tree := by
  apply (gives_target source left position).bind
  intro t aims
  split
  · exact gives_pure ⟨rfl, aims.assign op⟩
  · exact gives_fail source _ _

theorem gives_exchange (left right : Typed) (position : Nat) :
    Gives (exchange source left right position) fun n =>
      Right n ∧ Made offers scopes [left.tree, right.tree] n.tree := by
  apply (gives_target source left position).bind
  intro l lefts
  apply (gives_target source right position).bind
  intro r rights
  split
  · next same => exact gives_pure ⟨rfl, lefts.swap rights same⟩
  · exact gives_fail source _ _

/-! ### Operators and branches -/

theorem gives_conditional (test : Tree) (yes : Typed) (no : Option Typed) (position : Nat)
    (yesRight : Right yes) (noRight : ∀ n ∈ no, Right n) :
    Gives (conditional source test yes no position) fun n =>
      Right n ∧
        Made offers scopes (test :: yes.tree :: (no.map Typed.tree).toList) n.tree := by
  have made : (∀ n ∈ no, n.kind = yes.kind) →
      Made offers scopes (test :: yes.tree :: (no.map Typed.tree).toList)
        (.branch test yes.tree (no.map Typed.tree)) := by
    intro same
    refine made_of_parts (fun layout _ pieces => ?_) rfl rfl trivial (fun _ => rfl)
      (List.Sublist.refl _)
    refine .branch (pieces test (by simp)) (pieces yes.tree (by simp))
      (fun t inside => pieces t (by simp [inside])) fun t inside => ?_
    obtain ⟨n, found, rfl⟩ : ∃ n, no = some n ∧ n.tree = t := by simpa using inside
    rw [← noRight n found, ← yesRight]
    exact same n found
  unfold conditional
  cases no with
  | none => exact gives_pure ⟨yesRight, made (by simp)⟩
  | some n =>
      simp only
      split
      · next same => exact gives_pure ⟨yesRight, made (by simpa using same)⟩
      · exact gives_fail source _ _

theorem made_apply {op : Operation} {args : List Tree} (takes : op.Takes args) :
    Made offers scopes args (.apply op args) :=
  made_of_parts (fun _ _ pieces => .apply takes pieces) rfl rfl trivial (fun _ => rfl)
    (List.Sublist.refl _)

theorem formed_apply {op : Operation} {args : List Tree} (takes : op.Takes args) :
    Formed offers scopes args (.apply op args) :=
  (made_apply takes).toFormed

theorem combined_right {op : Op} {left right n : Typed}
    (combined : combined? op left right = some n) :
    Right n ∧ Made offers scopes [left.tree, right.tree] n.tree := by
  have two : ∀ {operation : Operation}, (∃ op, operation = .vectors op ∨ operation = .strings op ∨
      operation = .scalars op) → operation.Takes [left.tree, right.tree] := by
    rintro _ ⟨op, rfl | rfl | rfl⟩ <;> first | rfl | trivial
  have logical : ∀ c : Connective, Made offers scopes [left.tree, right.tree]
      (.logic c left.tree right.tree) := fun c =>
    made_of_parts (fun _ _ pieces => .logic (pieces _ (by simp)) (pieces _ (by simp))) rfl rfl
      trivial (fun _ => rfl) (List.Sublist.refl _)
  -- By the kinds of the two sides; where they do not match no operation is told.
  unfold combined? at combined
  dsimp only at combined
  split at combined
  · split at combined
    · obtain rfl := Option.some.inj combined
      exact ⟨rfl, logical .and⟩
    · obtain rfl := Option.some.inj combined
      exact ⟨rfl, logical .or⟩
    · cases combined
    · cases combined
    · cases combined
    · obtain rfl := Option.some.inj combined
      exact ⟨rfl, made_apply (two ⟨op, .inr (.inr rfl)⟩)⟩
  · split at combined
    · next comparison =>
        obtain rfl := Option.some.inj combined
        refine ⟨?_, made_apply (two ⟨op, .inr (.inl rfl)⟩)⟩
        cases op <;> first | rfl | simp [Op.isComparison, Op.precedence] at comparison
    · split at combined
      · next plus =>
          obtain rfl := Option.some.inj combined
          subst plus
          exact ⟨rfl, made_apply (two ⟨.plus, .inr (.inl rfl)⟩)⟩
      · cases combined
  case h_6 => cases combined
  all_goals
    split at combined
    · obtain rfl := Option.some.inj combined
      exact ⟨rfl, made_apply (two ⟨op, .inl rfl⟩)⟩
    · cases combined

theorem gives_combine (op : Op) (left right : Typed) (position : Nat) :
    Gives (combine source op left right position) fun n =>
      Right n ∧ Made offers scopes [left.tree, right.tree] n.tree := by
  unfold combine
  split
  · next n combined => exact gives_pure (combined_right combined)
  · exact gives_fail source _ _

/-! ### Calls -/

theorem gives_scalarArgs (name : String) (position place : Nat) (args : List Typed) :
    Gives (scalarArgs source name position place args) fun ts => ts = args.map Typed.tree := by
  induction args generalizing place with
  | nil => exact gives_pure rfl
  | cons a args ih =>
      rw [scalarArgs]
      split
      · apply (ih (place + 1)).bind
        intro rest rest_eq
        apply gives_pure
        rw [rest_eq, List.map_cons]
      · exact gives_fail source _ _

theorem gives_fixedArgs (name : String) (arity : Nat) (args : List Typed) (position : Nat) :
    Gives (fixedArgs source name arity args position) fun ts =>
      ts = args.map Typed.tree ∧ arity = args.length := by
  have counted : Gives (checkArity source name arity args.length position)
      fun _ => arity = args.length := by
    unfold checkArity
    split
    · next same => exact gives_pure same
    · exact gives_fail source _ _
  apply counted.bind
  intro _ same
  exact fun s => (gives_scalarArgs source name position 1 args s).mono
    (fun _ _ after => ⟨after.1, after.2, same⟩) fun _ _ after => after

theorem made_call {callee : Callee} {args : List Tree} (allowed : callee.Allowed offers args)
    (plain : ∀ b ∈ callee.bindings, Tree.load b ∈ args ∧ b.writable = true)
    (hands : (Tree.call callee args).HandsBack) :
    Made offers scopes args (.call callee args) := by
  refine made_of_parts (fun layout _ pieces => .call allowed (fun b inside => ?_) pieces) rfl rfl
    hands (fun _ => rfl) (List.Sublist.refl _)
  obtain ⟨argument, writable⟩ := plain b inside
  cases pieces _ argument with
  | load scope => exact ⟨scope, writable⟩

theorem writeback_eq_some {a : Typed} {b : Binding} (found : writeback a = some b) :
    a.tree = .load b ∧ b.writable = true := by
  unfold writeback at found
  split at found
  · next other tree_eq =>
      split at found
      · next writable =>
          obtain rfl := Option.some.inj found
          exact ⟨tree_eq, writable⟩
      · cases found
  · cases found

theorem writeback_plain {args : List Typed} {b : Binding}
    (inside : b ∈ (args.map writeback).filterMap id) :
    Tree.load b ∈ args.map Typed.tree ∧ b.writable = true := by
  simp only [List.mem_filterMap, List.mem_map, id] at inside
  obtain ⟨_, ⟨a, argument, rfl⟩, found⟩ := inside
  obtain ⟨tree_eq, writable⟩ := writeback_eq_some found
  exact ⟨List.mem_map.mpr ⟨a, argument, tree_eq⟩, writable⟩

theorem writeback_handsBack {name : String} {native overload : Nat} {args : List Typed} :
    (Tree.call (.generic name native overload (args.map writeback))
      (args.map Typed.tree)).HandsBack := by
  intro i b found
  rw [List.getElem?_map, Option.map_eq_some_iff] at found
  obtain ⟨a, argument, back⟩ := found
  obtain ⟨tree_eq, writable⟩ := writeback_eq_some back
  exact ⟨writable, .inl (by rw [List.getElem?_map, argument, Option.map_some, tree_eq])⟩

theorem gives_call (name : String) {callable : Callable}
    (offered : offers (.call name callable)) (args : List Typed) (position : Nat)
    (rights : ∀ a ∈ args, Right a) :
    Gives (call source name callable args position) fun n =>
      Right n ∧ Made offers scopes (args.map Typed.tree) n.tree := by
  have kinds : args.map Typed.kind = (args.map Typed.tree).map Tree.kind := by
    rw [List.map_map]
    exact List.map_congr_left fun a inside => rights a inside
  -- The alternative is resolved by the kinds the parser gave, which are those of the trees.
  cases callable with
  | scalar native arity =>
      apply (gives_fixedArgs source name arity args position).bind
      intro ts listed
      obtain ⟨rfl, -⟩ := listed
      exact gives_pure ⟨rfl, made_call trivial (by simp [Callee.bindings]) trivial⟩
  | vararg native =>
      apply (gives_scalarArgs source name position 1 args).bind
      intro ts listed
      subst listed
      exact gives_pure ⟨rfl, made_call trivial (by simp [Callee.bindings]) trivial⟩
  | generic native signature =>
      unfold call
      cases resolved : signature.resolve (args.map Typed.kind) with
      | none =>
          simp only [resolved]
          exact gives_fail source _ _
      | some overload =>
          simp only [resolved]
          refine gives_pure ⟨rfl, made_call ⟨signature, offered, kinds ▸ resolved⟩
            (fun b inside => writeback_plain inside) writeback_handsBack⟩
  | composed definition arity =>
      apply (gives_fixedArgs source name arity args position).bind
      intro ts listed
      obtain ⟨rfl, rfl⟩ := listed
      refine gives_pure ⟨rfl, made_call ?_ (by simp [Callee.bindings]) trivial⟩
      simpa [Callee.Allowed] using offered

theorem gives_builtin (name : String) (args : List Typed) (position : Nat)
    (rights : ∀ a ∈ args, Right a) :
    Gives (builtin source name args position) fun n =>
      Right n ∧ Made offers scopes (args.map Typed.tree) n.tree := by
  have fixed : ∀ (arity : Nat) (op : Operation),
      op.kind (firstKind (args.map Typed.tree)) = .scalar → op.Takes (args.map Typed.tree) →
      Gives (do return scalarNode (.apply op (← fixedArgs source name arity args position)))
        fun n => Right n ∧ Made offers scopes (args.map Typed.tree) n.tree := by
    intro arity op scalar takes
    apply (gives_fixedArgs source name arity args position).bind
    intro ts listed
    obtain ⟨rfl, -⟩ := listed
    exact gives_pure ⟨scalar.symm, made_apply takes⟩
  unfold builtin
  split
  · next f _ =>
      have counted : Gives (checkArity source name 1 args.length position) fun _ => True := by
        unfold checkArity
        split
        · exact gives_pure trivial
        · exact gives_fail source _ _
      apply counted.bind
      intro _ _
      split
      · next a =>
          split
          · exact gives_fail source _ _
          · next numeric =>
              have right := rights a (by simp)
              refine gives_pure ⟨right, made_apply ⟨a.tree, rfl, ?_⟩⟩
              rw [← right]
              exact numeric
      · exact gives_fail source _ _
  · split
    · next f _ => exact fixed 2 (.binary f) rfl trivial
    · split
      · next f _ => exact fixed 3 (.ternary f) rfl trivial
      · split
        · next r _ =>
            split
            · exact gives_fail source _ _
            · next tree =>
                exact gives_pure ⟨rfl, made_apply trivial⟩
            · apply (gives_scalarArgs source name position 1 _).bind
              intro ts listed
              subst listed
              exact gives_pure ⟨rfl, made_apply trivial⟩
        · exact gives_fail source _ _

end MathScript.Parse
