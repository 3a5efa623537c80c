import MathScript.Compile
import MathScript.Proofs.Mirror

/-!
Folding keeps the meaning of a program. On the machine a folded tree ends as the tree does,
whatever the state, in whatever way it ends; so a program runs the same with folding on and
off, in its own tree and in the body of every function it calls.
-/

namespace MathScript

open Tree

theorem agree_self {ε σ α : Type} (x : EStateM ε σ α) : Agree Eq x x := by
  rintro s _ rfl
  cases end_eq : x s with
  | ok a s' => exact ⟨rfl, rfl⟩
  | error e s' => exact ⟨rfl, rfl⟩

/-- One end up to equality is one end. -/
theorem SameEnd.eq {ε σ α : Type} {r r' : EStateM.Result ε σ α} (same : SameEnd Eq r r') :
    r = r' := by
  cases r with
  | ok a s =>
      cases r' with
      | ok b t =>
          obtain ⟨rfl, rfl⟩ := same
          rfl
      | error e t => exact same.elim
  | error e s =>
      cases r' with
      | ok b t => exact same.elim
      | error f t =>
          obtain ⟨rfl, rfl⟩ := same
          rfl

theorem Agree.eq {ε σ α : Type} {x y : EStateM ε σ α} (same : Agree Eq x y) (s : σ) :
    x s = y s :=
  (same s s rfl).eq

theorem silent_self {σ α : Type} {y : Flow σ α} {a : α} (yields : ∀ s, y s = .ok a s) :
    Silent Eq y a := by
  rintro s _ rfl
  exact ⟨s, yields s, rfl⟩

/-- The program that is run: the folded one if `folding`. -/
def Program.settle (folding : Bool) (p : Program) : Program := if folding then p.fold else p

/-- The host with some of its bodies folded. -/
def Host.settle (folded : Nat → Bool) (host : Host) : Host :=
  { host with body? := fun n => (host.body? n).map (Program.settle (folded n)) }

theorem Program.settle_settles (folding : Bool) (p : Program) : (p.settle folding).Settles p := by
  cases folding with
  | false => exact ⟨false, rfl, rfl⟩
  | true => exact ⟨true, rfl, rfl⟩

theorem Host.settles_self (host : Host) : host.Settles host where
  natives := rfl
  check := rfl
  limit := rfl
  rounds := rfl
  body n := by
    cases found : host.body? n with
    | none => exact .inl ⟨rfl, rfl⟩
    | some p => exact .inr ⟨p, p, rfl, rfl, p.settle_settles false⟩

theorem Host.settle_settles (folded : Nat → Bool) (host : Host) :
    (host.settle folded).Settles host where
  natives := rfl
  check := rfl
  limit := rfl
  rounds := rfl
  body n := by
    cases found : host.body? n with
    | none => exact .inl ⟨by simp [settle, found], rfl⟩
    | some p =>
        exact .inr ⟨p.settle (folded n), p, by simp [settle, found], rfl,
          p.settle_settles (folded n)⟩

namespace Machine

variable {left right : Host}

theorem callNumeric_eq (same : left.natives = right.natives) (native : Nat) (vs : List Value) :
    Eval.callNumeric left native vs = Eval.callNumeric right native vs := by
  funext m
  simp only [Eval.callNumeric, same]

theorem ask_eq (same : left.natives = right.natives) (native overload : Nat) (vs : List Value) :
    Eval.ask left native overload vs = Eval.ask right native overload vs := by
  funext m
  simp only [Eval.ask, same]

/-- The machine mirrors itself, whichever bodies of its host are folded. -/
theorem kernel_mirrors (hosts : left.Settles right) :
    (kernel left).Mirrors (kernel right) Eq where
  load _ := agree_self _
  element b x := by
    simp only [kernel, hosts.check]
    exact agree_self _
  slice b x y := by
    simp only [kernel, hosts.check]
    exact agree_self _
  size _ := agree_self _
  assign t op v := by
    simp only [kernel, hosts.check]
    exact agree_self _
  readTarget t := by
    simp only [kernel, hosts.check]
    exact agree_self _
  writeTarget _ _ := agree_self _
  declare _ _ _ := agree_self _
  numeric native vs := by
    simp only [kernel, callNumeric_eq hosts.natives]
    exact agree_self _
  generic folding native overload writeback args vs := by
    simp only [kernel, Eval.callGeneric, ask_eq hosts.natives]
    exact agree_self _
  enter p q args x y size_eq same := by
    have frame_eq : Host.frame p args = Host.frame q args := by simp only [Host.frame, size_eq]
    simp only [kernel, Host.enter, frame_eq]
    apply Flow.agree_enter same
    · rintro m _ rfl
      rfl
    · rintro m _ m' _ rfl rfl
      rfl
  applied _ _ _ _ := agree_pure ()
  finished _ _ _ := agree_pure ()
  literal _ m := ⟨m, rfl, fun _ same => same⟩
  constant b x stands := by
    apply silent_self
    intro m
    simp only [kernel, Eval.load, read, stands]
  operation _ _ _ := silent_pure ()
  node _ _ := silent_pure ()

/-- On the machine a settled tree ends as the tree. -/
theorem eval_settle (hosts : left.Settles right) (folding : Bool) (depth : Nat) (t : Tree)
    (m : Machine) :
    (settle folding t).eval left (left.invoke depth) m = t.eval right (right.invoke depth) m := by
  have mirrors := kernel_mirrors hosts
  have same := mirrors.walk_alike hosts
    (fun name p q args settled => mirrors.invoke_alike hosts depth name args settled) t folding
  simpa only [invoke_kernel, walk_kernel] using same.eq m

end Machine

/-- A program runs the same folded or not, with every body folded or not. -/
theorem Host.run_settle (host : Host) (folded : Nat → Bool) (folding : Bool) (p : Program)
    (store : Store) : (host.settle folded).run (p.settle folding) store = host.run p store := by
  have tree_eq : (p.settle folding).tree = Tree.settle folding p.tree := by
    cases folding <;> rfl
  have size_eq : (p.settle folding).frameSize = p.frameSize := by cases folding <;> rfl
  have same := Machine.eval_settle (host.settle_settles folded) folding host.limit p.tree
    ⟨store, frame p [], #[]⟩
  simp only [run, frame, tree_eq, size_eq] at same ⊢
  simp only [show (host.settle folded).limit = host.limit from rfl, same]

theorem compile_folding (table : Table) (settings : Settings) (params : List String)
    (text : String) :
    compile table { settings with constantFolding := true } params text =
      (compile table { settings with constantFolding := false } params text).map
        Program.fold := by
  have same : parse table { settings with constantFolding := true } params text =
      parse table { settings with constantFolding := false } params text := rfl
  simp only [compile, same]
  cases parse table { settings with constantFolding := false } params text <;> rfl

/-- A folded tree ends as the tree does, on every machine; with folding on a text is accepted
when it is accepted with folding off, and every run of it is the same, whichever of the bodies
it calls are folded. -/
theorem folding_keeps_meaning :
    (∀ (host : Host) (depth : Nat) (t : Tree) (m : Machine),
      t.fold.eval host (host.invoke depth) m = t.eval host (host.invoke depth) m) ∧
    (∀ (table : Table) (settings : Settings) (params : List String) (text : String),
      compile table { settings with constantFolding := true } params text =
        (compile table { settings with constantFolding := false } params text).map
          Program.fold) ∧
    ∀ (host : Host) (folded : Nat → Bool) (p : Program) (store : Store),
      (host.settle folded).run p.fold store = host.run p store :=
  ⟨fun host depth t m => Machine.eval_settle host.settles_self true depth t m, compile_folding,
    fun host folded p store => host.run_settle folded true p store⟩

end MathScript
