import MathScript.Proofs.Fitting
import MathScript.Proofs.History

/-!
Calls of functions written in the language are resolved when a text is compiled: a call goes to the
number that its name stands for in the table, with as many arguments as the table says. Folding
leaves of every call that is left what it calls and how many arguments it has.
-/

namespace MathScript

/-- Every node of a built tree is built where it stands. -/
theorem Built.node {offers : Grant → Prop} {layout : List Slot} {live : List Nat} {t node : Tree}
    (built : Built offers layout live t) (inside : node ∈ t.nodes) :
    ∃ live', Built offers layout live' node := by
  induction t using Tree.children_induction generalizing live with
  | step t ih =>
      rw [Tree.nodes_eq] at inside
      rcases List.mem_cons.mp inside with rfl | below
      · exact ⟨live, built⟩
      · obtain ⟨child, member, within⟩ := List.mem_flatMap.mp below
        obtain ⟨live', inner⟩ := built.child member
        exact ih child member inner within

namespace Tree

theorem mem_calls {t : Tree} {n : Nat} :
    n ∈ t.calls ↔ ∃ name args, t = .call (.composed name n) args := by
  cases t with
  | call callee args => cases callee <;> simp [calls, Callee.definitions, eq_comm]
  | _ => simp [calls]

/-- What is folded to a call was that call, or one of its parts is folded to it. -/
theorem call_of_fold {t : Tree} {name : String} {n : Nat} {args : List Tree}
    (same : t.fold = .call (.composed name n) args) :
    (∃ plain, t = .call (.composed name n) plain ∧ args = foldList plain) ∨
      ∃ child ∈ t.heads, child.fold = .call (.composed name n) args := by
  rcases fold_node t with null | ⟨x, number⟩ | recast | ⟨child, outside, chosen⟩
  · rw [null] at same
    cases same
  · rw [number] at same
    cases same
  · have called : [n] = t.calls := by
      rw [← recast.calls, same]
      rfl
    cases t
    case call callee plain =>
        rw [fold] at same
        obtain ⟨rfl, rfl⟩ := Tree.call.inj same
        exact .inl ⟨plain, rfl, rfl⟩
    all_goals cases called
  · exact .inr ⟨child, outside, chosen ▸ same⟩

/-- Folding brings no call into a tree. -/
theorem mem_nodes_of_fold {t : Tree} {name : String} {n : Nat} {args : List Tree}
    (inside : .call (.composed name n) args ∈ t.fold.nodes) :
    ∃ plain, .call (.composed name n) plain ∈ t.nodes ∧ plain.length = args.length := by
  induction t using children_induction with
  | step t ih =>
      have deeper : ∀ child ∈ t.children, .call (.composed name n) args ∈ child.fold.nodes →
          ∃ plain, .call (.composed name n) plain ∈ t.nodes ∧ plain.length = args.length := by
        intro child member within
        obtain ⟨plain, found, same⟩ := ih child member within
        refine ⟨plain, ?_, same⟩
        rw [nodes_eq]
        exact List.mem_cons_of_mem _ (List.mem_flatMap.mpr ⟨child, member, found⟩)
      have head : t.fold = .call (.composed name n) args →
          ∃ plain, .call (.composed name n) plain ∈ t.nodes ∧ plain.length = args.length := by
        intro same
        rcases call_of_fold same with ⟨plain, rfl, rfl⟩ | ⟨child, outside, same⟩
        · exact ⟨plain, mem_nodes_self _, by simp [foldList_eq]⟩
        · exact deeper child (mem_children.mpr (.inl outside)) (same ▸ mem_nodes_self _)
      rw [nodes_eq] at inside
      rcases List.mem_cons.mp inside with same | below
      · exact head same.symm
      · obtain ⟨child, member, within⟩ := List.mem_flatMap.mp below
        rcases fold_node t with null | ⟨x, number⟩ | recast | ⟨chosen, outside, same⟩
        · rw [null] at member
          cases member
        · rw [number] at member
          cases member
        · obtain ⟨plain, among, rfl⟩ := recast.child member
          exact deeper plain among within
        · rw [same] at member
          refine deeper chosen (mem_children.mpr (.inl outside)) ?_
          rw [nodes_eq]
          exact List.mem_cons_of_mem _ (List.mem_flatMap.mpr ⟨child, member, within⟩)

end Tree

/-- A call goes to what its name stands for in the table. -/
theorem compile_call {table : Table} {settings : Settings} {params : List String} {text : String}
    {p : Program} (compiled : compile table settings params text = .ok p) {name : String} {n : Nat}
    {args : List Tree} (inside : .call (.composed name n) args ∈ p.tree.nodes) :
    table.find? name = some (.function (.composed n args.length)) := by
  obtain ⟨q, parsed, rfl⟩ := compile_ok compiled
  obtain ⟨⟨layout, -, -, -, built⟩, -⟩ := parse_built parsed
  obtain ⟨plain, within, same⟩ :
      ∃ plain, .call (.composed name n) plain ∈ q.tree.nodes ∧ plain.length = args.length := by
    unfold Program.settle at inside
    split at inside
    · exact Tree.mem_nodes_of_fold inside
    · exact ⟨args, inside, rfl⟩
  obtain ⟨live, node⟩ := built.node within
  cases node with
  | call allowed scope inner =>
      rcases allowed with known | ⟨d, -, other⟩
      · rw [← same]
        exact known
      · cases other

end MathScript
