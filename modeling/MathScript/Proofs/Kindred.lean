import MathScript.Proofs.Twins

/-!
Every parser is its own twin. What is read of a text on one side is read on the others by the same
moves: the nodes are put together alike, or refused for the same reason, and each part of a
statement goes on alike.
-/

namespace MathScript.Parse

open Renamable

variable {ι : Type} {c : Sides ι} {b : Bool}

/-! ### Names in nodes -/

theorem assignable_rename (naming : Naming) (t : Target Tree) (op : AssignOp) (value : Kind) :
    assignable (Tree.renameTarget naming t) op value = assignable t op value := by
  unfold assignable
  rw [Tree.kind_renameTarget]
  generalize t.kind = kind
  cases t <;> cases kind <;> cases value <;> rfl

theorem combined_rename (naming : Naming) (op : Op) (left right : Typed) :
    combined? op (rename naming left) (rename naming right) =
      (combined? op left right).map (rename naming) := by
  obtain ⟨l, lkind⟩ := left
  obtain ⟨r, rkind⟩ := right
  cases lkind <;> cases rkind <;> cases op <;> rfl

theorem sequence_rename (naming : Naming) (items : List Typed) :
    sequence (rename naming items) = rename naming (sequence items) := by
  rcases items with _ | ⟨first, _ | ⟨second, items⟩⟩
  · rfl
  · rfl
  · have trees : Tree.renameList naming ((first :: second :: items).map Typed.tree) =
        (rename naming (first :: second :: items)).map Typed.tree := by
      simp [Tree.renameList_eq]
    have kinds : ((rename naming (first :: second :: items)).getLast?.map Typed.kind) =
        ((first :: second :: items).getLast?.map Typed.kind) := by
      rw [rename_list, List.getLast?_map, Option.map_map]
      rfl
    simp only [sequence, rename_typed, Tree.rename, trees, ← kinds]
    rfl

theorem writeback_rename (naming : Naming) (a : Typed) :
    writeback (rename naming a) = (writeback a).map (Binding.rename naming) := by
  obtain ⟨tree, kind⟩ := a
  cases tree with
  | load binding =>
      simp only [writeback, rename_typed, Tree.rename, Binding.writable_rename]
      split <;> rfl
  | _ => rfl

theorem cases_tree_rename (naming : Naming) (cases : Cases) :
    (rename naming cases).tree = rename naming cases.tree := by
  obtain ⟨cases, default, kind⟩ := cases
  simp only [Cases.tree, rename_typed, Tree.rename, Tree.renameCases_eq, Tree.renameOption_eq,
    List.map_reverse]
  rfl

namespace Twins

section

variable {α β : Type} [Renamable α] [Renamable β]

/-- What has not come further in may stand anywhere. -/
theorem anywhere {x : Parse α} {y : ι → Parse α} (flat : Twins c false x y) (b : Bool) :
    Twins c b x y := by
  cases b with
  | false => exact flat
  | true => exact .inside flat

theorem deeper {x : Parse α} {y : ι → Parse α} {b' : Bool} (twins : Twins c b x y) :
    Twins c (b || b') x y := by
  cases b with
  | false => exact twins.anywhere b'
  | true => exact twins

theorem result {a : α} {as : ι → α} (same : ∀ i, as i = rename (c.naming i) a) :
    Twins c b (pure a) fun i => pure (as i) := by
  obtain rfl : as = fun i => rename (c.naming i) a := funext same
  exact .done a

theorem ite {p : Prop} [Decidable p] {q : ι → Prop} [∀ i, Decidable (q i)] {x x' : Parse α}
    {y y' : ι → Parse α} (same : ∀ i, q i ↔ p) (yes : p → Twins c b x y)
    (no : ¬ p → Twins c b x' y') :
    Twins c b (if p then x else x') fun i => if q i then y i else y' i := by
  by_cases holds : p
  · simp only [holds, (same _).mpr holds, if_true]
    exact yes holds
  · have fails : ∀ i, ¬ q i := fun i => mt (same i).mp holds
    simp only [holds, fails, if_false]
    exact no holds

/-! ### Tokens -/

section

variable {x x' : Parse α} {y y' : ι → Parse α}

theorem eat (sym : Sym) (last : b = false → sym ≠ .semicolon)
    (yes : Twins c (b || leads (.sym sym)) x y) (no : Twins c b x' y') :
    Twins c b (do if ← Parse.eat c.source sym then x else x')
      (fun i => do if ← Parse.eat (c.others i) sym then y i else y' i) := by
  simp only [eat_bind]
  refine .take _ (fun _ _ => rfl) (fun flat => ?_) (fun t r found here there near => ?_) no
  · rw [if_neg fun same => last flat (Token.sym.inj same).symm]
  · obtain ⟨rfl, -⟩ := Option.ite_none_right_eq_some.mp found
    exact yes

theorem eatWord (word : String) (reserved : isReserved word = true) (other : word ≠ "var")
    (yes : Twins c (b || leads (.word word)) x y) (no : Twins c b x' y') :
    Twins c b (do if ← Parse.eatWord c.source word then x else x')
      (fun i => do if ← Parse.eatWord (c.others i) word then y i else y' i) := by
  simp only [eatWord_bind]
  refine .take _ (fun name free => ?_) (fun _ => rfl) (fun t r found here there near => ?_) no
  · rw [if_neg]
    rintro ⟨⟩
    exact free.elim (fun free => by rw [reserved] at free; cases free) other
  · obtain ⟨rfl, -⟩ := Option.ite_none_right_eq_some.mp found
    exact yes

theorem check (sym : Sym) (last : b = false → sym ≠ .semicolon) {f : Bool → Parse α}
    {g : ι → Bool → Parse α} (rest : ∀ r, Twins c b (f r) fun i => g i r) :
    Twins c b (Parse.check c.source sym >>= f) fun i => Parse.check (c.others i) sym >>= g i := by
  refine .glance (· == some (.sym sym)) (fun _ _ _ _ => rfl) (fun flat => ?_) rest
  have other : (some (Token.sym .semicolon) == some (.sym sym)) = false := by
    simpa using (last flat).symm
  rw [other]
  rfl

/-- Further in, any symbol may be asked for. -/
theorem eatIn (sym : Sym) (yes : Twins c true x y) (no : Twins c true x' y') :
    Twins c true (do if ← Parse.eat c.source sym then x else x')
      (fun i => do if ← Parse.eat (c.others i) sym then y i else y' i) := by
  refine eat sym ?_ yes no
  exact nofun

theorem checkIn (sym : Sym) (yes : Twins c true x y) (no : Twins c true x' y') :
    Twins c true (do if ← Parse.check c.source sym then x else x')
      (fun i => do if ← Parse.check (c.others i) sym then y i else y' i) := by
  refine check sym ?_ fun _ => ite (fun _ => .rfl) (fun _ => yes) fun _ => no
  exact nofun

end

omit [Renamable α] in
theorem expect_bind (source : Source) (sym : Sym) (context : String) (f : Unit → Parse α) :
    Parse.expect source sym context >>= f = (Parse.eat source sym >>= fun taken =>
      if taken then f () else do
        let here ← Parse.position source
        Parse.fail source here (.expected sym context (← peek source))) := by
  rw [Parse.expect, bind_assoc]
  congr 1
  funext taken
  cases taken with
  | true => rfl
  | false =>
      simp only [Bool.false_eq_true, if_false, bind_assoc]
      rfl

theorem expect (sym : Sym) (context : String) (last : b = false → sym ≠ .semicolon)
    {f : Unit → Parse α} {g : ι → Unit → Parse α}
    (rest : Twins c (b || leads (.sym sym)) (f ()) fun i => g i ()) :
    Twins c b (Parse.expect c.source sym context >>= f) fun i =>
      Parse.expect (c.others i) sym context >>= g i := by
  simp only [expect_bind]
  exact eat sym last rest <| .position fun here there near => .refuse near fun _ _ => rfl

theorem expectIn (sym : Sym) (context : String) {f : Unit → Parse α} {g : ι → Unit → Parse α}
    (rest : Twins c true (f ()) fun i => g i ()) :
    Twins c true (Parse.expect c.source sym context >>= f) fun i =>
      Parse.expect (c.others i) sym context >>= g i := by
  refine expect sym context ?_ rest
  exact nofun

end

/-! ### Nodes -/

section

variable {here : Nat} {there : ι → Nat} (near : c.Near here there)

include near

theorem requireScalar (node : Typed) (what : String) :
    Twins c b (Parse.requireScalar c.source node here what) fun i =>
      Parse.requireScalar (c.others i) (rename (c.naming i) node) (there i) what :=
  ite (fun _ => .rfl) (fun _ => .done _) fun _ => .fail near fun _ _ => rfl

theorem aim (node : Typed) : Twins c b (Parse.aim c.source node here) fun i =>
    Parse.aim (c.others i) (rename (c.naming i) node) (there i) := by
  obtain ⟨tree, kind⟩ := node
  cases tree with
  | load binding =>
      obtain ⟨name, place, writable⟩ := binding
      cases place with
      | constant x => exact .fail near fun _ _ => rfl
      | _ => exact .done _
  | element binding index =>
      refine result fun i => ?_
      simp only [Binding.kind_rename]
      split <;> rfl
  | slice binding first last =>
      refine ite (fun i => ?_) (fun _ => .done _) fun _ => .fail near fun _ _ => rfl
      rw [Binding.kind_rename]
  | _ => exact .fail near fun _ _ => rfl

theorem target (node : Typed) : Twins c b (Parse.target c.source node here) fun i =>
    Parse.target (c.others i) (rename (c.naming i) node) (there i) := by
  refine .bind (aim near node) fun t => ite (fun i => ?_) (fun _ => .done t) fun _ =>
    .fail near fun i plain => ?_
  · rw [rename_target, Tree.binding_renameTarget, Binding.writable_rename]
  · rw [plain, rename_none]

theorem assignment (left : Typed) (op : AssignOp) (value : Typed) :
    Twins c b (Parse.assignment c.source left op value here) fun i =>
      Parse.assignment (c.others i) (rename (c.naming i) left) op (rename (c.naming i) value)
        (there i) := by
  refine .bind (target near left) fun t => ite (fun i => ?_) (fun _ => result fun i => ?_)
    fun _ => .fail near fun i plain => ?_
  · simp only [assignable_rename, rename_target, kind_rename]
  · simp only [rename_target, rename_typed, tree_rename, Tree.rename, Tree.kind_renameTarget]
  · rw [plain, rename_none, rename_none]

theorem exchange (left right : Typed) : Twins c b (Parse.exchange c.source left right here)
    fun i => Parse.exchange (c.others i) (rename (c.naming i) left) (rename (c.naming i) right)
      (there i) := by
  refine .bind (target near left) fun l => .bind (target near right) fun r =>
    ite (fun i => ?_) (fun _ => result fun i => ?_) fun _ => .fail near fun i plain => ?_
  · simp only [rename_target, Tree.kind_renameTarget]
  · simp only [rename_target, rename_typed, Tree.rename, Tree.kind_renameTarget]
  · rw [plain, rename_none, rename_none]

theorem conditional (test : Tree) (yes : Typed) (no : Option Typed) :
    Twins c b (Parse.conditional c.source test yes no here) fun i =>
      Parse.conditional (c.others i) (rename (c.naming i) test) (rename (c.naming i) yes)
        (rename (c.naming i) no) (there i) := by
  cases no with
  | none => exact .done _
  | some n => exact ite (fun _ => .rfl) (fun _ => .done _) fun _ => .fail near fun _ _ => rfl

theorem combine (op : Op) (left right : Typed) :
    Twins c b (Parse.combine c.source op left right here) fun i =>
      Parse.combine (c.others i) op (rename (c.naming i) left) (rename (c.naming i) right)
        (there i) := by
  have same : ∀ i, combined? op (rename (c.naming i) left) (rename (c.naming i) right) =
      (combined? op left right).map (rename (c.naming i)) := fun i => combined_rename _ op left right
  unfold Parse.combine
  simp only [same]
  cases combined? op left right with
  | none => exact .fail near fun _ _ => rfl
  | some node => exact .done node

theorem scalarArgs (name : String) (place : Nat) (args : List Typed) :
    Twins c b (Parse.scalarArgs c.source name here place args) fun i =>
      Parse.scalarArgs (c.others i) name (there i) place (rename (c.naming i) args) := by
  induction args generalizing place with
  | nil => exact .done []
  | cons a args ih =>
      exact ite (fun _ => .rfl) (fun _ => .bind (ih _) fun rest => .done (a.tree :: rest))
        fun _ => .fail near fun _ _ => rfl

theorem checkArity (name : String) (expected found : Nat) :
    Twins c b (Parse.checkArity c.source name expected found here) fun i =>
      Parse.checkArity (c.others i) name expected found (there i) :=
  ite (fun _ => .rfl) (fun _ => .done ()) fun _ => .fail near fun _ _ => rfl

theorem fixedArgs (name : String) (arity : Nat) (args : List Typed) :
    Twins c b (Parse.fixedArgs c.source name arity args here) fun i =>
      Parse.fixedArgs (c.others i) name arity (rename (c.naming i) args) (there i) := by
  unfold Parse.fixedArgs
  simp only [rename_list, List.length_map]
  exact .bind (checkArity near name arity _) fun _ => scalarArgs near name 1 args

theorem call (name : String) (callable : Callable) (args : List Typed) :
    Twins c b (Parse.call c.source name callable args here) fun i =>
      Parse.call (c.others i) name callable (rename (c.naming i) args) (there i) := by
  have node : ∀ i (callee : Callee) (trees : List Tree),
      scalarNode (.call (callee.rename (c.naming i)) (rename (c.naming i) trees)) =
        rename (c.naming i) (scalarNode (.call callee trees)) := fun i callee trees => by
    simp [scalarNode, Tree.renameList_eq]
  cases callable with
  | scalar native arity =>
      exact .bind (fixedArgs near name arity args) fun trees =>
        result fun i => node i (.scalar name native) trees
  | vararg native =>
      exact .bind (scalarArgs near name 1 args) fun trees =>
        result fun i => node i (.vararg name native) trees
  | generic native signature =>
      have kinds : ∀ i, (rename (c.naming i) args).map Typed.kind = args.map Typed.kind := by
        simp
      have written : ∀ i, (rename (c.naming i) args).map writeback =
          (args.map writeback).map (Option.map (Binding.rename (c.naming i))) := by
        simp [writeback_rename]
      have trees : ∀ i, (rename (c.naming i) args).map Typed.tree =
          rename (c.naming i) (args.map Typed.tree) := by
        simp
      unfold Parse.call
      simp only [kinds]
      cases signature.resolve (args.map Typed.kind) with
      | none => exact .fail near fun _ _ => rfl
      | some overload =>
          refine result fun i => ?_
          rw [written, trees]
          exact node i (.generic name native overload (args.map writeback)) _
  | composed definition arity =>
      exact .bind (fixedArgs near name arity args) fun trees =>
        result fun i => node i (.composed name definition) trees

theorem builtin (name : String) (args : List Typed) :
    Twins c b (Parse.builtin c.source name args here) fun i =>
      Parse.builtin (c.others i) name (rename (c.naming i) args) (there i) := by
  have node : ∀ i (op : Operation) (trees : List Tree),
      scalarNode (.apply op (rename (c.naming i) trees)) =
        rename (c.naming i) (scalarNode (.apply op trees)) := fun i op trees => by
    simp [scalarNode, Tree.renameList_eq]
  unfold Parse.builtin
  cases Unary.ofName? name with
  | some f =>
      simp only [rename_list, List.length_map]
      refine .bind (checkArity near name 1 _) fun _ => ?_
      rcases args with _ | ⟨a, _ | ⟨a', args⟩⟩
      · exact .fail near fun _ _ => rfl
      · exact ite (fun _ => .rfl) (fun _ => .fail near fun _ _ => rfl) fun _ => .done _
      · exact .fail near fun _ _ => by simp
  | none => ?_
  cases Binary.ofName? name with
  | some f => exact .bind (fixedArgs near name 2 args) fun trees => result fun i => node i _ trees
  | none => ?_
  cases Ternary.ofName? name with
  | some f => exact .bind (fixedArgs near name 3 args) fun trees => result fun i => node i _ trees
  | none => ?_
  cases Reduction.ofName? name with
  | none => exact .fail near fun _ _ => rfl
  | some r =>
      have reduced : ∀ args, Twins c b (do
          return scalarNode (.apply (.reduce r) (← Parse.scalarArgs c.source name here 1 args)))
          fun i => do return scalarNode (.apply (.reduce r)
            (← Parse.scalarArgs (c.others i) name (there i) 1 (rename (c.naming i) args))) :=
        fun args => .bind (scalarArgs near name 1 args) fun trees => result fun i => node i _ trees
      rcases args with _ | ⟨⟨tree, kind⟩, args⟩
      · exact .fail near fun _ _ => rfl
      · cases kind with
        | vector =>
            cases args with
            | nil => exact .done _
            | cons second args => exact reduced (⟨tree, .vector⟩ :: second :: args)
        | scalar => cases args <;> exact reduced (⟨tree, .scalar⟩ :: _)
        | string => cases args <;> exact reduced (⟨tree, .string⟩ :: _)

theorem checkCount (count : Nat) (name : String) (names : ι → String)
    (same : ∀ i, c.Plain i → names i = name) (length : Option Nat) :
    Twins c b (Parse.checkCount c.source count name length here) fun i =>
      Parse.checkCount (c.others i) count (names i) length (there i) := by
  cases length with
  | none => exact .done ()
  | some n =>
      exact ite (fun _ => .rfl) (fun _ => .fail near fun i plain => by rw [same i plain]) fun _ =>
        .done ()

theorem addCase (cases : Cases) (test : Option Tree) (body : Typed) :
    Twins c b (Parse.addCase c.source cases test body here) fun i =>
      Parse.addCase (c.others i) (rename (c.naming i) cases) (rename (c.naming i) test)
        (rename (c.naming i) body) (there i) := by
  obtain ⟨cases, default, kind⟩ := cases
  have added : ∀ i, (rename (c.naming i) (⟨cases, default, kind⟩ : Cases)).add
      (rename (c.naming i) test) (rename (c.naming i) body) =
      rename (c.naming i) ((⟨cases, default, kind⟩ : Cases).add test body) := fun i => by
    cases test <;> rfl
  cases kind with
  | none => exact result added
  | some first =>
      exact ite (fun _ => .rfl) (fun _ => result added) fun _ => .fail near fun _ _ => rfl

end

end Twins

end MathScript.Parse
