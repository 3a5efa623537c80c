import MathScript.Proofs.Bearing
import MathScript.Proofs.Curtail
import MathScript.Proofs.Lengths
import MathScript.Proofs.ReadOnly

/-!
Vectors whose elements are only exchanged. If nothing that runs writes a vector but swaps of two of
its elements, the vector ends as a permutation of what it was, whatever stops the run. The second
index of a swap may not write the vector: it is evaluated after the first element was read.
-/

namespace MathScript

open Machine Tree

/-! ### Who writes a place -/

namespace Tree

def Writes (t : Tree) (p : Place) : Prop := ∃ q ∈ t.written, q.Shares p

instance (t : Tree) (p : Place) : Decidable (t.Writes p) :=
  inferInstanceAs (Decidable (∃ q ∈ t.written, q.Shares p))

end Tree

namespace Host

/-- The code that runs when a tree is evaluated, as far as it may reach a place: its own, and for a
place of the host the bodies of the functions that are called. -/
inductive Code (host : Host) (p : Place) (t : Tree) : Tree → Prop
  | own : Code host p t t
  | body {u : Tree} {n : Nat} {q : Program} (shared : p.isHost = true) (code : Code host p t u)
      (called : u.Calls n) (found : host.body? n = some q) : Code host p t q.tree

/-- Nothing that runs writes the place. -/
def Spares (host : Host) (p : Place) (t : Tree) : Prop :=
  ∀ u, host.Code p t u → ∀ node ∈ u.nodes, ¬ node.Writes p

/-- A swap of two elements of the vector at a place. -/
inductive Exchange (host : Host) (p : Place) : Tree → Prop
  | swap {a b : Binding} {i j : Tree} (left : a.place = p) (right : b.place = p)
      (spared : host.Spares p j) : Exchange host p (.swap (.element a i) (.element b j))

/-- All that runs and writes the place are swaps of two elements of the vector there. -/
def OnlySwaps (host : Host) (p : Place) (t : Tree) : Prop :=
  ∀ u, host.Code p t u → ∀ node ∈ u.nodes, node.Writes p → host.Exchange p node

variable {host : Host} {p : Place} {t u : Tree}

theorem Code.trans {w : Tree} (code : host.Code p t u) (code' : host.Code p u w) :
    host.Code p t w := by
  induction code' with
  | own => exact code
  | body shared _ called found ih => exact .body shared ih called found

/-- Where no function written in the language is called, the code is the tree's own. -/
theorem Code.eq_of_no_calls (none : ∀ n, ¬ t.Calls n) (code : host.Code p t u) : u = t := by
  induction code with
  | own => rfl
  | body _ _ called _ ih =>
      subst ih
      exact absurd called (none _)

end Host

namespace Tree

/-- Whether a node is a swap of two elements of the vector at a place, with a second index that has
no node that writes it. -/
def exchanges (p : Place) : Tree → Bool
  | .swap (.element a _) (.element b j) =>
      a.place = p && b.place = p && j.nodes.all fun node => !decide (node.Writes p)
  | _ => false

/-- Whether a tree calls no function written in the language and writes a vector by swaps only. -/
def swapsOnly (p : Place) (t : Tree) : Bool :=
  t.nodes.all fun node => node.calls.isEmpty && (!decide (node.Writes p) || node.exchanges p)

end Tree

theorem Host.onlySwaps_of_swapsOnly {host : Host} {p : Place} {t : Tree}
    (only : t.swapsOnly p = true) : host.OnlySwaps p t := by
  have nodes := List.all_eq_true.mp only
  simp only [Bool.and_eq_true, List.isEmpty_iff, Bool.or_eq_true, Bool.not_eq_true',
    decide_eq_false_iff_not] at nodes
  have calls : ∀ u : Tree, u.nodes ⊆ t.nodes → ∀ n, ¬ u.Calls n := by
    rintro u within n ⟨node, inside, called⟩
    rw [(nodes node (within inside)).1] at called
    cases called
  intro u code node inside writes
  obtain rfl := code.eq_of_no_calls (calls t (List.Subset.refl _))
  have exchange := (nodes node inside).2.resolve_left (not_not_intro writes)
  unfold exchanges at exchange
  split at exchange
  · next a i b j =>
      simp only [Bool.and_eq_true, decide_eq_true_eq, List.all_eq_true, Bool.not_eq_true',
        decide_eq_false_iff_not] at exchange
      obtain ⟨⟨here, there⟩, spared⟩ := exchange
      refine .swap here there fun w code => ?_
      have below : j ∈ u.nodes := mem_nodes_child inside (by simp [children, Target.indices])
      obtain rfl := code.eq_of_no_calls (calls j (nodes_subset below))
      exact spared
  · cases exchange

/-! ### Steps that leave a place alone -/

namespace Machine

variable {m : Machine} {p q : Place}

theorem read_setScalar_apart (apart : ¬ q.Shares p) (x : Float) :
    (m.setScalar q x).read p = m.read p := by
  cases q with
  | slot i kind =>
      cases p with
      | slot j kind' =>
          have apart : i ≠ j := apart
          simp [read, slot, setScalar, Array.getD_eq_getD_getElem?, apart]
      | scalar | constant | vector | string => rfl
  | scalar c =>
      cases p with
      | scalar c' =>
          have apart : c.index ≠ c'.index := fun same =>
            apart (congrArg (fun i => Place.scalar ⟨i⟩) same)
          simp [read, setScalar, Store.setScalar, Store.scalar, Array.getD_eq_getD_getElem?, apart]
      | slot | constant | vector | string => rfl
  | constant | vector | string => rfl

theorem read_declare_apart {slot : Nat} {kind : Kind} (apart : ¬ (Place.slot slot kind).Shares p)
    (v : Value) : (m.declare slot v).read p = m.read p := by
  cases p with
  | slot j kind' =>
      have apart : slot ≠ j := apart
      simp [read, Machine.slot, declare, Array.getD_eq_getD_getElem?, apart]
  | scalar | constant | vector | string => rfl

end Machine

/-- Whether the property holds depends on nothing but what the place holds. -/
def Minds (p : Place) (J : Machine → Prop) : Prop :=
  ∀ m m' : Machine, m'.read p = m.read p → J m → J m'

namespace Minds

variable {p q : Place} {J : Machine → Prop} (minds : Minds p J)

include minds

theorem placewise : Placewise J := fun m m' still => minds m m' (still.places p id)

theorem bears (apart : ¬ q.Shares p) : Bears J q where
  setScalar _ x := minds _ _ (read_setScalar_apart apart x)
  modifyVector m _ kept := minds _ _ ((still_modifyVector m q kept).places p apart)
  modifyString m f := minds _ _ ((still_modifyString m q f).places p apart)

/-- A node that does not write the place leaves what it holds. -/
theorem inStepAt (host : Host) {t : Tree} (spared : ¬ t.Writes p) :
    (kernel host).InStepAt (kernel host) (fun {α} (x : Eval α) (_ : Eval α) => Keeps J x) t := by
  have apart : ∀ q ∈ t.written, ¬ q.Shares p := fun q inside shares => spared ⟨q, inside, shares⟩
  refine inStepAt_of_bears host minds.placewise (fun _ q inside => minds.bears (apart q inside))
    fun slot shape declared v _ m => ?_
  have own : (Place.slot slot shape.kind) ∈ t.written := by
    cases t <;> cases declared
    exact List.mem_singleton_self _
  exact minds _ _ (read_declare_apart (apart _ own) v)

end Minds

/-- What the vector at a place holds has a property. -/
def Holding (p : Place) (J : Array Float → Prop) (m : Machine) : Prop := J (m.vectorAt p)

theorem minds_holding {p : Place} {J : Array Float → Prop} : Minds p (Holding p J) :=
  fun m m' same held => by rwa [Holding, vectorAt, same, ← vectorAt]

/-! ### Exchanges -/

namespace Eval

variable {xs : Array Float} {i j : Int} {x y : Float}

theorem elementAt?_eq_some (found : elementAt? xs i = some x) :
    ∃ n : Nat, i = n ∧ ∃ short : n < xs.size, xs[n] = x := by
  unfold elementAt? at found
  split at found
  · cases found
  · next above =>
      obtain ⟨short, same⟩ := Array.getElem?_eq_some_iff.mp found
      exact ⟨i.toNat, by omega, short, same⟩

/-- Two elements written over each other; they may be one. -/
theorem perm_setElementAt (left : elementAt? xs i = some x) (right : elementAt? xs j = some y) :
    (setElementAt (setElementAt xs i y) j x).Perm xs := by
  obtain ⟨m, rfl, inside, rfl⟩ := elementAt?_eq_some left
  obtain ⟨n, rfl, inside', rfl⟩ := elementAt?_eq_some right
  have swapped : setElementAt (setElementAt xs m xs[n]) n xs[m] = xs.swap m n inside inside' := by
    have above : ∀ k : Nat, ¬ (k : Int) < 0 := fun k => by omega
    rw [setElementAt, if_neg (above n), setElementAt, if_neg (above m), Array.swap_def]
    simp only [Int.toNat_natCast]
    rw [Array.setIfInBounds_def, Array.setIfInBounds_def, dif_pos inside, dif_pos (by simpa)]
  rw [swapped]
  exact Array.swap_perm inside inside'

variable {p : Place} {J : Array Float → Prop}

theorem ends_vectorOf {b : Binding} {m : Machine} {ok : Array Float → Machine → Prop}
    {bad : Signal → Machine → Prop} (given : ok (m.vectorAt b.place) m) :
    Ends (vectorOf b) m ok bad := given

/-- An element is read as it is, and reading it leaves the vector alone. -/
theorem ends_readElement (check : Option Check) {b : Binding} (own : b.place = p) (index : Float)
    (m : Machine) :
    Ends (readTarget check (.element b index)) m
      (fun old m' => m'.vectorAt p = m.vectorAt p ∧ ∀ v, old = some v →
        ∃ x, v = .scalar x ∧ elementAt? (m.vectorAt p) (Index.ofFloat index) = some x)
      fun _ m' => m'.vectorAt p = m.vectorAt p := by
  have same : Ends (readTarget check (.element b index)) m
      (fun _ m' => m'.vectorAt p = m.vectorAt p) fun _ m' => m'.vectorAt p = m.vectorAt p :=
    keeps_readTarget (minds_holding (p := p) (J := (· = m.vectorAt p))).placewise check _ m rfl
  suffices reads : Ends (readTarget check (.element b index)) m (fun old _ => ∀ v, old = some v →
      ∃ x, v = .scalar x ∧ elementAt? (m.vectorAt p) (Index.ofFloat index) = some x)
      fun _ _ => True from (same.and reads).mono (fun _ _ => id) fun _ _ => And.left
  refine ends_bind (ends_bind (ends_vectorOf ?_))
  rw [own]
  cases found : elementAt? (m.vectorAt p) (Index.ofFloat index) with
  | some x =>
      refine ends_pure (ends_pure ?_)
      rintro v ⟨⟩
      exact ⟨x, rfl, rfl⟩
  | none =>
      refine ends_bind (ends_true.mono (fun _ _ _ => ends_pure (ends_pure ?_)) fun _ _ => id)
      rintro v ⟨⟩

/-- An element of the vector at a place. -/
def ElementOf (p : Place) (t : Target Float) : Prop := ∃ b index, t = .element b index ∧ b.place = p

/-- A swap of two elements keeps whatever a permutation keeps. -/
theorem keeps_swap (permuted : ∀ {xs ys}, ys.Perm xs → J xs → J ys) (check : Option Check)
    {left right : Eval (Target Float)}
    (lefts : ∀ m, Holding p J m → Ends left m (fun t m' => ElementOf p t ∧ Holding p J m')
      fun _ => Holding p J)
    (rights : ∀ m, Ends right m (fun t m' => ElementOf p t ∧ m'.vectorAt p = m.vectorAt p)
      fun _ m' => m'.vectorAt p = m.vectorAt p) :
    Keeps (Holding p J) (swap check left right) := by
  have again : ∀ {m m' : Machine}, Holding p J m → m'.vectorAt p = m.vectorAt p →
      Holding p J m' := fun held same => by rwa [Holding, same]
  intro m held
  refine ends_bind ((lefts m held).mono ?_ fun _ _ => id)
  rintro _ m₁ ⟨⟨a, index, rfl, here⟩, held₁⟩
  refine ends_bind ((ends_readElement check here index m₁).mono ?_ fun _ _ => again held₁)
  rintro old m₂ ⟨same₂, reads⟩
  have held₂ := again held₁ same₂
  refine ends_bind ((rights m₂).mono ?_ fun _ _ => again held₂)
  rintro _ m₃ ⟨⟨b, index', rfl, there⟩, same₃⟩
  have held₃ := again held₂ same₃
  refine ends_bind ((ends_readElement check there index' m₃).mono ?_ fun _ _ => again held₃)
  rintro new m₄ ⟨same₄, reads'⟩
  have held₄ := again held₃ same₄
  match old, new with
  | none, _ => exact ends_pure held₄
  | some _, none => exact ends_pure held₄
  | some _, some _ =>
      obtain ⟨x, rfl, found⟩ := reads _ rfl
      obtain ⟨y, rfl, found'⟩ := reads' _ rfl
      -- Both elements were read from the vector that is there now.
      rw [← same₂, ← same₃, ← same₄] at found
      rw [← same₄] at found'
      refine ends_bind (ends_modify (ends_bind (ends_modify (ends_pure ?_))))
      rw [Holding, here, there, vectorAt_modify _ p fun xs => size_setElementAt xs _ _,
        vectorAt_modify _ p fun xs => size_setElementAt xs _ _]
      exact permuted (perm_setElementAt found found') held₄

end Eval

/-! ### Whole evaluations -/

namespace Host

variable {host : Host} {p : Place} {t : Tree}

section

variable {J : Machine → Prop} (minds : Minds p J)

include minds

/-- A call reaches places of the host only; those of the frame are given back. -/
theorem keeps_enter (program : Program) (args : List Float) {body : Eval Value}
    (kept : p.isHost = true → Keeps J body) : Keeps J (enter program args body) := by
  intro m held
  by_cases shared : p.isHost = true
  · exact Flow.ends_enter (kept shared _ (minds _ _ (read_host shared _) held))
      fun m' => minds _ _ (read_host shared _)
  · refine Flow.ends_enter (K := fun _ => True) ends_true fun m' _ => minds m _ ?_ held
    cases p <;> first | rfl | exact absurd rfl shared

/-- What every node that writes the place keeps, the tree keeps. -/
theorem keeps_tree {invoke : Invoke}
    (invokes : ∀ n, t.Calls n → ∀ q, host.body? n = some q → ∀ name args,
      Keeps J (invoke name q args))
    (writers : ∀ node ∈ t.nodes, node.Writes p →
      (∀ child ∈ node.children, Keeps J (child.eval host invoke)) →
      Keeps J (node.eval host invoke)) :
    Keeps J (t.eval host invoke) := by
  have walked : ∀ u : Tree, u.Every (· ∈ t.nodes) → Keeps J (u.eval host invoke) := by
    intro u every
    induction every with
    | @node u inside _ ih =>
        by_cases writes : u.Writes p
        · exact writers u inside writes ih
        · rw [← walk_kernel]
          refine Kernel.InStep.walk_node_self (keeps_lockstep _) (minds.inStepAt host writes)
            (fun _ => keeps_pure ()) (fun n called q found => invokes n ⟨u, inside, called⟩ q found)
            fun child below => ?_
          rw [walk_kernel]
          exact ih child below
  exact walked t (every_iff.mpr fun _ => id)

/-- And all that runs keeps it, however deep the calls go. -/
theorem keeps_eval
    (writers : ∀ u, host.Code p t u → ∀ node ∈ u.nodes, node.Writes p → ∀ depth,
      (∀ child ∈ node.children, Keeps J (child.eval host (host.invoke depth))) →
      Keeps J (node.eval host (host.invoke depth))) (depth : Nat) :
    Keeps J (t.eval host (host.invoke depth)) := by
  induction depth generalizing t with
  | zero =>
      exact keeps_tree minds (fun _ _ _ _ _ _ => keeps_throw _) fun node inside writes =>
        writers t .own node inside writes 0
  | succ depth ih =>
      refine keeps_tree minds (fun n called q found name args =>
        keeps_enter minds q args fun shared => ?_) fun node inside writes =>
          writers t .own node inside writes (depth + 1)
      exact ih fun u code => writers u (.trans (.body shared .own called found) code)

/-- Code that spares a place leaves it as it is. -/
theorem Spares.keeps (spares : host.Spares p t) (depth : Nat) :
    Keeps J (t.eval host (host.invoke depth)) :=
  keeps_eval minds (fun u code node inside writes => absurd writes (spares u code node inside))
    depth

end

variable {J : Array Float → Prop}

/-- A swap permutes; its second index leaves the vector as the first read found it. -/
theorem Exchange.keeps (permuted : ∀ {xs ys}, ys.Perm xs → J xs → J ys) {node : Tree}
    (exchange : host.Exchange p node) {depth : Nat}
    (below : ∀ child ∈ node.children,
      Keeps (Holding p J) (child.eval host (host.invoke depth))) :
    Keeps (Holding p J) (node.eval host (host.invoke depth)) := by
  obtain ⟨here, there, spared⟩ := exchange
  next a b i j =>
    simp only [Tree.eval]
    refine Eval.keeps_swap permuted host.check (fun m held => ?_) fun m => ?_
    · refine ends_bind ((below i (by simp [children, Target.indices]) m held).mono ?_
        fun _ _ => id)
      exact fun v m' held' => ends_pure ⟨⟨a, _, rfl, here⟩, held'⟩
    · have same : Ends (j.eval host (host.invoke depth)) m
          (fun _ m' => m'.vectorAt p = m.vectorAt p) fun _ m' => m'.vectorAt p = m.vectorAt p :=
        spared.keeps (minds_holding (J := (· = m.vectorAt p))) depth m rfl
      refine ends_bind (same.mono ?_ fun _ _ => id)
      exact fun v m' same' => ends_pure ⟨⟨b, _, rfl, there⟩, same'⟩

theorem OnlySwaps.perm (only : host.OnlySwaps p t) (depth : Nat) (m : Machine) :
    ((lastState (t.eval host (host.invoke depth) m)).vectorAt p).Perm (m.vectorAt p) := by
  have kept : Keeps (Holding p (·.Perm (m.vectorAt p))) (t.eval host (host.invoke depth)) :=
    keeps_eval minds_holding (fun u code node inside writes _ below =>
      (only u code node inside writes).keeps (fun perm held => perm.trans held) below) depth
  exact ends_lastState.mp (kept m (.refl _))

end Host

/-- Programs that only swap elements permute. If all that runs and writes a vector of the host are
swaps of two of its elements, it ends as a permutation of what it was, whatever ends the run and
whatever check is told of the accesses; and so does a local vector with any part of a program that
writes it in no other way. -/
theorem only_swaps_permute (host : Host) (program : Program) (store : Store) :
    (∀ c, host.OnlySwaps (.vector c) program.tree →
      ((host.run program store).store.vector c).Perm (store.vector c)) ∧
    ∀ (part : Tree) (slot : Nat), host.OnlySwaps (.slot slot .vector) part →
      ∀ (depth : Nat) (m : Machine),
        ((lastState (part.eval host (host.invoke depth) m)).vectorAt (.slot slot .vector)).Perm
          (m.vectorAt (.slot slot .vector)) := by
  refine ⟨fun c only => ?_, fun part slot only => only.perm⟩
  have ended := only.perm host.limit (Host.start program store)
  rw [Host.run_eq, run_kernel]
  exact ended

/-- Bubble sort, with a check that ends the run at the first access outside. -/
theorem only_swaps_permute_of_bubble_sort :
    let w := World.empty.run [.addVector "t" "data" #[3, 1, 2]]
    let host := w.host (some ⟨Judge.abort, ⟨0⟩⟩) 100 1000
    let text := "var upper_bound:=data[];var swapped:=true;repeat swapped:=false;
for(var i:=1;i<upper_bound;i+=1){if(data[i-1]>data[i]){data[i-1]<=>data[i];swapped:=true;}}
upper_bound-=1;until(not(swapped)or(upper_bound<=1));"
    ∃ program,
      compile (w.table "t") {} [] text = .ok program ∧
      host.OnlySwaps (.vector ⟨0⟩) program.tree ∧
      ((host.run program w.store).store.vector ⟨0⟩).Perm (w.store.vector ⟨0⟩) := by
  intro w host text
  have swaps : (compile (w.table "t") {} [] text).toOption.map
      (fun program => program.tree.swapsOnly (.vector ⟨0⟩)) = some true := by
    decide +kernel
  cases compiled : compile (w.table "t") {} [] text with
  | error ds =>
      rw [compiled] at swaps
      cases swaps
  | ok program =>
      rw [compiled] at swaps
      have only : host.OnlySwaps (.vector ⟨0⟩) program.tree :=
        Host.onlySwaps_of_swapsOnly (Option.some.inj swaps)
      exact ⟨program, rfl, only, (only_swaps_permute host program w.store).1 _ only⟩

end MathScript
