import MathScript.Proofs.Acceptance
import MathScript.Proofs.Aside
import MathScript.Proofs.Copies

/-!
Compound assignments and what they stand for. `t op= e` combines in place what the target holds
with the value; `t := t op e` reads the target, has the operator make a new value of it, cut to the
shorter of two vectors, and assigns that over the target, which keeps its length. On one machine the
two are one assignment. On one host they go through machines that differ in what a check was told.
-/

namespace MathScript

open Machine Tree

/-! ### In place and written over -/

theorem ok_of_bind {ε σ α β : Type} {x : EStateM ε σ α} {f : α → EStateM ε σ β} {b : β}
    {s s' : σ} (done : (x >>= f) s = .ok b s') :
    ∃ a s₁, x s = .ok a s₁ ∧ f a s₁ = .ok b s' := by
  cases first : x s with
  | ok a s₁ =>
      rw [bind_completed first] at done
      exact ⟨a, s₁, rfl, done⟩
  | error e s₁ =>
      rw [bind_stopped first] at done
      cases done

/-- What a binary operator does, by the kind of its left side. -/
def Operation.over (o : Op) : Kind → Operation
  | .scalar => .scalars o
  | .vector => .vectors o
  | .string => .strings o

theorem AssignOp.zipWith_set {old new : Array Float} (short : new.size ≤ old.size) :
    old.zipWith AssignOp.set.combine new = new := by
  apply Array.ext_getElem?
  intro i
  rw [Array.getElem?_zipWith]
  by_cases inside : i < new.size
  · rw [Array.getElem?_eq_getElem inside, Array.getElem?_eq_getElem (by omega)]
    rfl
  · rw [Array.getElem?_eq_none (by omega : new.size ≤ i)]
    cases old[i]? <;> rfl

/-- A variable or an element of a vector. -/
def Target.Plain {α : Type} : Target α → Prop
  | .whole _ => True
  | .element b _ => b.kind = .vector
  | .range .. => False

/-- Reads what a target would write. -/
def Eval.look (check : Option Check) : Target Float → Eval Value
  | .whole b => load b
  | .element b index => element check b index
  | .range b first last => slice check b first last

namespace Eval

variable {op : AssignOp} {o : Op} (compound : op.operator? = some o)

section

include compound

theorem combine_expansion (x y : Float) :
    op.combine x y = AssignOp.set.combine x (o.apply x y) := by
  rw [AssignOp.combine, compound]
  rfl

theorem combineVector_expansion (old : Array Float) (v : Value) :
    combineVector op old v =
      combineVector .set old (.vector (Operation.elementwise o (.vector old) v)) := by
  have applied : op.combine = o.apply := by
    funext x y
    exact combine_expansion compound x y
  cases v with
  | vector new =>
      simp only [combineVector, Operation.elementwise, applied]
      rw [AssignOp.zipWith_set (by rw [Array.size_zipWith]; omega)]
  | null | scalar | string =>
      simp only [combineVector, Operation.elementwise, applied]
      rw [AssignOp.zipWith_set (by simp), Range.refill_same (by simp)]

theorem modifyVector_expansion (m : Machine) (p : Place) (v : Value) :
    m.modifyVector p (combineVector op · v) = m.modifyVector p (combineVector .set ·
      (.vector (Operation.elementwise o (m.read p) v))) := by
  apply modifyVector_congr
  rw [vectorAt]
  cases m.read p with
  | vector xs => exact combineVector_expansion compound xs v
  | null | scalar | string =>
      -- Where there is no vector, there is nothing to combine.
      exact (Array.eq_empty_of_size_eq_zero (size_combineVector op #[] v)).trans
        (Array.eq_empty_of_size_eq_zero (size_combineVector .set #[] _)).symm

omit compound in
theorem modify_same {f g : Machine → Machine} {m : Machine} (same : f m = g m) :
    (modify f : Eval PUnit) m = (modify g : Eval PUnit) m :=
  congrArg (EStateM.Result.ok PUnit.unit) same

/-- On one machine the two assignments are one, if the value of the expansion has on its left what
the target holds. -/
theorem assign_expansion {check : Option Check} {x : Target Float} {m m' : Machine}
    {old v : Value} (plain : x.Plain) (strings : x.kind = .string → op = .add)
    (read : look check x m = .ok old m') :
    assign check x op v m = assign check x .set ((Operation.over o x.kind).result [old, v]) m := by
  cases x with
  | whole b =>
      obtain ⟨rfl, rfl⟩ : m.read b.place = old ∧ m = m' := by
        injection read with value machine
        exact ⟨value, machine⟩
      simp only [assign, assignWhole, Target.kind] at strings ⊢
      cases kind_eq : b.kind with
      | scalar =>
          have combined := combine_expansion compound (m.read b.place).asScalar v.asScalar
          simp only [load, bind, EStateM.bind, combined]
          rfl
      | vector =>
          have modified := modifyVector_expansion compound m b.place v
          exact bind_same (modify_same modified) _
      | string =>
          obtain rfl := strings kind_eq
          obtain rfl : Op.plus = o := Option.some.inj compound
          have modified : m.modifyString b.place (combineString .add · v.asString) =
              m.modifyString b.place (combineString .set ·
                ((m.read b.place).asString ++ v.asString)) := modifyString_congr rfl
          exact bind_same (modify_same modified) _
  | element b index =>
      have vector : b.kind = .vector := plain
      simp only [look, element, vector, bind, EStateM.bind, element?_eq] at read
      simp only [assign, bind, EStateM.bind, element?_eq]
      cases found : elementAt? (m.vectorAt b.place) (Index.ofFloat index) with
      | none =>
          cases report check b (m.vectorAt b.place).size (Index.ofFloat index) m <;> rfl
      | some current =>
          obtain rfl : Value.scalar current = old := by
            rw [found] at read
            injection read
          have combined := combine_expansion compound current v.asScalar
          simp only [combined]
          rfl
  | range b first last => exact plain.elim

end

end Eval

/-! ### Two assignments on one host -/

section

variable {host : Host} {m : Machine} {old v : Value} {op : AssignOp} {x : Target Float}

theorem Target.Plain.evaluated {t : Target Tree} {invoke : Invoke} {m' : Machine}
    (plain : t.Plain) (aimed : evalTarget host invoke t m = .ok x m') :
    x.Plain ∧ x.kind = t.kind ∧ x.binding = t.binding := by
  cases t with
  | whole b =>
      cases aimed
      exact ⟨trivial, rfl, rfl⟩
  | element b index =>
      simp only [evalTarget] at aimed
      obtain ⟨i, _, -, aimed⟩ := ok_of_bind aimed
      cases aimed
      exact ⟨plain, rfl, rfl⟩
  | range b first last => exact plain.elim

namespace Eval

theorem aside_look {check : Option Check} {m' : Machine} (plain : x.Plain)
    (read : look check x m = .ok old m') : Aside check m m' := by
  cases x with
  | whole b =>
      cases read
      exact .refl m
  | element b index =>
      have vector : b.kind = .vector := plain
      simp only [look, element, vector, bind, EStateM.bind] at read
      split at read
      · next found =>
          cases read
          exact (element?_ok found).2
      · cases read
  | range b first last => exact plain.elim

/-- What is aimed at and read without effects is aimed at without effects. -/
theorem Quiet.parts {check : Option Check} {aim : Eval (Target Float)}
    (quiet : Quiet check (aim >>= look check) m old)
    (plain : ∀ x m', aim m = .ok x m' → x.Plain) :
    ∃ x m', aim m = .ok x m' ∧ Aside check m m' ∧ Quiet check (look check x) m' old := by
  obtain ⟨m', done, aside⟩ := quiet
  obtain ⟨x, m₁, aimed, read⟩ := ok_of_bind done
  have kept := aside_look (plain x m₁ aimed) read
  exact ⟨x, m₁, aimed, aside.trans kept.symm, m', read, kept⟩

/-- An assignment is completed where its target can be read. -/
theorem assign_completes {check : Option Check} {m' : Machine} (plain : x.Plain)
    (read : look check x m = .ok old m') (op : AssignOp) (v : Value) :
    ∃ w m'', assign check x op v m = .ok w m'' := by
  cases x with
  | whole b =>
      simp only [assign, assignWhole]
      cases b.kind <;> exact ⟨_, _, rfl⟩
  | element b index =>
      have vector : b.kind = .vector := plain
      simp only [look, element, vector, bind, EStateM.bind] at read
      simp only [assign, bind, EStateM.bind]
      split at read
      · next found m₁ _ =>
          cases found <;> exact ⟨_, _, rfl⟩
      · cases read
  | range b first last => exact plain.elim

end Eval

namespace Host.Impartial

variable (impartial : host.Impartial) {n : Machine}

include impartial

theorem agree_look {places : List Place} (outside : ∀ p ∈ places, ¬ p.Shares x.binding.place) :
    Agree (Unused host.check places m n) (Eval.look host.check x) (Eval.look host.check x) := by
  cases x with
  | whole b => exact impartial.kernel.load b outside
  | element b index => exact impartial.kernel.element b index outside
  | range b first last => exact impartial.kernel.slice b first last outside

/-- The two assignments go the same way, each on its own machine. -/
theorem assign_expansion {o : Op} (compound : op.operator? = some o) (plain : x.Plain)
    (strings : x.kind = .string → op = .add)
    (read : Eval.Quiet host.check (Eval.look host.check x) m old) (aside : Aside host.check m n) :
    ∃ w m' n', Eval.assign host.check x op v m = .ok w m' ∧
      Eval.assign host.check x .set ((Operation.over o x.kind).result [old, v]) n = .ok w n' ∧
      Aside host.check m' n' := by
  obtain ⟨_, read', _⟩ := (impartial.agree_look (by simp)).quiet read aside
  rw [← Eval.assign_expansion compound plain strings read']
  obtain ⟨_, read, _⟩ := read
  obtain ⟨w, m', assigned⟩ := Eval.assign_completes plain read op v
  have same : SameEnd _ (Eval.assign host.check x op v m) (Eval.assign host.check x op v n) :=
    impartial.kernel.assign x op v (by simp) m n (.start aside)
  rw [assigned] at same
  obtain ⟨n', assigned', unused⟩ := same.of_ok
  exact ⟨w, m', n', assigned, assigned', unused.apart⟩

end Host.Impartial

end

theorem Tree.eval_apply_pair {host : Host} {invoke : Invoke} (op : Operation) {l r : Tree}
    {a b : Value} {m m₁ m₂ : Machine} (left : l.eval host invoke m = .ok a m₁)
    (right : r.eval host invoke m₁ = .ok b m₂) :
    (Tree.apply op [l, r]).eval host invoke m = .ok (op.result [a, b]) m₂ := by
  simp only [eval, evalList, bind_assoc, pure_bind]
  rw [bind_completed left, bind_completed right]
  rfl

/-! ### What is written -/

namespace Parse

variable {source : Source} {left value node sum node' : Typed} {op : AssignOp} {o : Op}

/-- What a node stands for when it is written. -/
inductive Denotes : Tree → Target Tree → Prop
  | whole (b : Binding) : Denotes (.load b) (.whole b)
  | element (b : Binding) (index : Tree) (vector : b.kind = .vector) :
      Denotes (.element b index) (.element b index)
  | character (b : Binding) (index : Tree) (other : b.kind ≠ .vector) :
      Denotes (.element b index) (.range b (some index) (some index))
  | slice (b : Binding) (first last : Option Tree) :
      Denotes (.slice b first last) (.range b first last)

theorem Denotes.unique {tree : Tree} {t t' : Target Tree} (denotes : Denotes tree t)
    (denotes' : Denotes tree t') : t = t' := by
  cases denotes <;> cases denotes' <;> first | rfl | contradiction

/-- As an operand it is aimed at and read. -/
theorem Denotes.eval_eq {tree : Tree} {t : Target Tree} (denotes : Denotes tree t) (plain : t.Plain)
    (host : Host) (invoke : Invoke) :
    tree.eval host invoke = evalTarget host invoke t >>= Eval.look host.check := by
  cases denotes with
  | whole b => rfl
  | element b index =>
      simp only [eval, evalTarget, bind_assoc, pure_bind]
      rfl
  | character | slice => exact plain.elim

theorem Denotes.unused {tree : Tree} {t : Target Tree} {host : Host} {places : List Place}
    (denotes : Denotes tree t) (plain : t.Plain) (unused : ∀ p ∈ places, host.Ignores p tree) :
    (∀ p ∈ places, ¬ p.Shares t.binding.place) ∧
      ∀ i ∈ t.indices, ∀ p ∈ places, host.Ignores p i := by
  cases denotes with
  | whole b =>
      refine ⟨fun p inside => (unused p inside _ .own).1 b ?_, nofun⟩
      exact ⟨_, mem_nodes_self _, by simp [bindings]⟩
  | element b index =>
      refine ⟨fun p inside => (unused p inside _ .own).1 b ?_, fun i below p inside => ?_⟩
      · exact ⟨_, mem_nodes_self _, by simp [bindings]⟩
      · exact (unused p inside).child below
  | character | slice => exact plain.elim

theorem ends_target_denotes (left : Typed) (place : Nat) (s : State) :
    Ends (target source left place) s (fun t _ => Denotes left.tree t) fun _ _ => True := by
  have denotes : Ends (aim source left place) s (fun t _ => Denotes left.tree t)
      fun _ _ => True := by
    unfold aim
    split
    · trivial
    · next tree_eq =>
        rw [tree_eq]
        exact ends_pure (.whole _)
    · next b index tree_eq =>
        rw [tree_eq]
        refine ends_pure ?_
        split
        · next vector => exact .element b index vector
        · next other => exact .character b index other
    · next b first last tree_eq =>
        rw [tree_eq]
        split
        · exact ends_pure (.slice b first last)
        · trivial
    · trivial
  refine ends_bind (denotes.mono (fun t _ denotes => ?_) fun _ _ => id)
  split
  · exact ends_pure denotes
  · trivial

theorem of_assignment {place : Nat} {s s' : State}
    (written : assignment source left op value place s = .ok node s') :
    ∃ t, Denotes left.tree t ∧ assignable t op value.kind = true ∧
      node = ⟨.assign t op value.tree, t.kind⟩ := by
  suffices Ends (assignment source left op value place) s (fun node _ => ∃ t,
      Denotes left.tree t ∧ assignable t op value.kind = true ∧
        node = ⟨.assign t op value.tree, t.kind⟩) fun _ _ => True from this.of_ok written
  refine ends_bind ((ends_target_denotes left place s).mono (fun t _ denotes => ?_) fun _ _ => id)
  split
  · next allowed => exact ends_pure ⟨t, denotes, allowed, rfl⟩
  · trivial

theorem of_combine {place : Nat} {s s' : State}
    (applied : combine source o left value place s = .ok sum s') :
    combined? o left value = some sum := by
  unfold combine at applied
  cases found : combined? o left value with
  | some node =>
      rw [found] at applied
      cases applied
      rfl
  | none =>
      rw [found] at applied
      cases applied

/-- The operation of the expansion goes by the kind of the left side. -/
theorem combined_over (compound : op.operator? = some o)
    (kinds : left.kind = .scalar → value.kind = .scalar)
    (found : combined? o left value = some sum) :
    sum.tree = .apply (.over o left.kind) [left.tree, value.tree] := by
  have operator : o = .plus ∨ o = .minus ∨ o = .times ∨ o = .divide ∨ o = .modulo := by
    cases op <;> cases compound <;> simp
  unfold combined? at found
  cases left_eq : left.kind <;> cases value_eq : value.kind <;>
    simp only [left_eq, value_eq] at found kinds
  case scalar.vector => cases kinds trivial
  case scalar.scalar | vector.scalar | vector.vector | string.string =>
    rcases operator with rfl | rfl | rfl | rfl | rfl <;> cases found <;> rfl
  all_goals cases found

/-- A compound assignment is to a variable or an element; to a string it is the addition. -/
theorem Denotes.plain {tree : Tree} {t : Target Tree} {kind : Kind} (denotes : Denotes tree t)
    (compound : op.operator? = some o) (allowed : assignable t op kind = true) :
    t.Plain ∧ t.kind = tree.kind ∧ (t.kind = .scalar → kind = .scalar) ∧
      (t.kind = .string → op = .add) := by
  have other : op ≠ .set := by
    rintro rfl
    cases compound
  cases denotes with
  | whole b =>
      refine ⟨trivial, rfl, ?_, ?_⟩ <;> intro kind_eq <;>
        cases kind <;> simp_all [assignable]
  | element b index vector =>
      refine ⟨vector, by simp [Target.kind, Tree.kind, vector], ?_, nofun⟩
      intro _
      cases kind <;> simp_all [assignable, Target.kind]
  | character | slice =>
      cases kind <;> simp_all [assignable, Target.kind]

/-! ### Whole assignments -/

/-- Compound assignments are their expansions. If `left op= value` and `left := left op value` are
both accepted, they have the same kind; and on every machine where the left side can be read without
effects, and the value is yielded with no effects but at places that the left side makes no use of,
both are completed. They yield the same value and leave the same machine, reports aside, folded or
not. The check, if there is one, decides by the access alone; that the left side can be read means
that the check lets its own access pass. -/
theorem compound_is_expansion {host : Host} (impartial : host.Impartial)
    {p q r : Nat} {s s' t t' u u' : State} (compound : op.operator? = some o) (right : Right left)
    (written : assignment source left op value p s = .ok node s')
    (applied : combine source o left value q t = .ok sum t')
    (expanded : assignment source left .set sum r u = .ok node' u')
    {depth : Nat} {m m' : Machine} {old v : Value} {places : List Place}
    (reads : Eval.Quiet host.check (left.tree.eval host (host.invoke depth)) m old)
    (yields : value.tree.eval host (host.invoke depth) m = .ok v m')
    (effects : Besides host.check places m m') (unused : ∀ p ∈ places, host.Ignores p left.tree)
    (folding folding' : Bool) :
    node.kind = node'.kind ∧ ∃ w n n',
      (settle folding node.tree).eval host (host.invoke depth) m = .ok w n ∧
      (settle folding' node'.tree).eval host (host.invoke depth) m = .ok w n' ∧
      Aside host.check n n' := by
  obtain ⟨target, denotes, allowed, rfl⟩ := of_assignment written
  obtain ⟨target', denotes', -, rfl⟩ := of_assignment expanded
  obtain rfl := denotes.unique denotes'
  obtain ⟨plain, kind_eq, scalars, strings⟩ := denotes.plain compound allowed
  refine ⟨rfl, ?_⟩
  have sum_eq : sum.tree = .apply (.over o target.kind) [left.tree, value.tree] := by
    rw [kind_eq, ← right]
    refine combined_over compound (fun scalar => scalars ?_) (of_combine applied)
    rw [kind_eq, ← right, scalar]
  have aims := reads
  rw [denotes.eval_eq plain] at aims
  obtain ⟨x, m₀, aimed, aside₀, looks⟩ := aims.parts fun x m' aimed => (plain.evaluated aimed).1
  obtain ⟨xplain, kind, binding⟩ := plain.evaluated aimed
  obtain ⟨outside, indices⟩ := denotes.unused plain unused
  -- The one evaluates its value and then aims.
  obtain ⟨m₂, aimed₂, aside₂⟩ :=
    (impartial.agree_target indices depth).quiet ⟨m₀, aimed, aside₀⟩ effects
  have looks₂ : Eval.Quiet host.check (Eval.look host.check x) m₂ old := by
    refine (impartial.agree_look (binding ▸ outside)).quiet looks ?_
    exact (aside₀.symm.mono (by simp)).trans (effects.trans (aside₂.mono (by simp)))
  -- The other one has read the target before.
  obtain ⟨n₁, read, aside₃⟩ := reads
  obtain ⟨n₂, yields₂, aside₄⟩ := impartial.again yields aside₃
  obtain ⟨n₃, aimed₃, aside₅⟩ := impartial.aims_again ⟨m₂, aimed₂, aside₂⟩ aside₄
  obtain ⟨w, m₃, n₄, assigned, assigned', alike⟩ := impartial.assign_expansion (v := v) compound
    xplain (fun string => strings (kind ▸ string)) looks₂
    (aside₂.symm.trans (aside₄.trans aside₅))
  refine ⟨w, m₃, n₄, ?_, ?_, alike⟩
  · rw [eval_settle host.settles_self, eval, bind_completed yields, bind_completed aimed₂]
    exact assigned
  · have summed : sum.tree.eval host (host.invoke depth) m =
        .ok ((Operation.over o x.kind).result [old, v]) n₂ := by
      rw [sum_eq, ← kind]
      exact eval_apply_pair _ read yields₂
    rw [eval_settle host.settles_self, eval, bind_completed summed, bind_completed aimed₃]
    exact assigned'

/-- A shorter vector is added to the front of a longer one. -/
theorem compound_is_expansion_of_shorter :
    let w := World.empty.run [.addVector "t" "v" #[1, 2, 3], .addVector "t" "w" #[10, 20]]
    let host := w.host (some ⟨Judge.log, ⟨0⟩⟩) 100 1000
    let m := Host.start ⟨.null, 0⟩ w.store
    let source := Compile.source (w.table "t") {} ""
    let s := Compile.start {} [] []
    let v : Binding := ⟨"v", .vector ⟨0⟩, true⟩
    let left : Typed := ⟨.load v, .vector⟩
    let value : Typed := ⟨.load ⟨"w", .vector ⟨1⟩, true⟩, .vector⟩
    let sum : Typed := ⟨.apply (.vectors .plus) [left.tree, value.tree], .vector⟩
    let node : Typed := ⟨.assign (.whole v) .add value.tree, .vector⟩
    let node' : Typed := ⟨.assign (.whole v) .set sum.tree, .vector⟩
    assignment source left .add value 0 s = .ok node s ∧
      combine source .plus left value 0 s = .ok sum s ∧
      assignment source left .set sum 0 s = .ok node' s ∧
      ∃ x n n', (settle true node.tree).eval host (host.invoke 100) m = .ok x n ∧
        (settle true node'.tree).eval host (host.invoke 100) m = .ok x n' ∧
        Aside host.check n n' ∧ x = .vector #[11, 22, 3] := by
  intro w host m source s v left value sum node node'
  have impartial : host.Impartial := by
    constructor
    · rintro c ⟨⟩ kept kept' access
      rfl
    · rintro c ⟨⟩ n r registered
      cases registered
  have reads : Eval.Quiet host.check (left.tree.eval host (host.invoke 100)) m
      (.vector #[1, 2, 3]) := ⟨m, rfl, .refl m⟩
  have yields : value.tree.eval host (host.invoke 100) m = .ok (.vector #[10, 20]) m := rfl
  have effects : Besides host.check [] m m := .refl m
  have right : Right left := rfl
  have written : assignment source left .add value 0 s = .ok node s := rfl
  have applied : combine source .plus left value 0 s = .ok sum s := rfl
  have expanded : assignment source left .set sum 0 s = .ok node' s := rfl
  obtain ⟨-, x, n, n', done, done', aside⟩ :=
    compound_is_expansion impartial rfl right written applied expanded reads yields effects
      (by simp) true true
  have yielded : ((settle true node.tree).eval host (host.invoke 100)).run' m =
      some (.vector #[11, 22, 3]) := by
    decide +kernel
  delta EStateM.run' EStateM.run at yielded
  rw [done] at yielded
  exact ⟨written, applied, expanded, x, n, n', done, done', aside, Option.some.inj yielded⟩

end Parse

end MathScript
