import MathScript.Proofs.Exchanges
import MathScript.Proofs.Variables

/-!
Machines that are the same but for what a check has been told, and for what is stored at some
places. If a check decides by the access alone, an evaluation that makes no use of the places goes
the same way on both: what it yields without effects on one machine it yields without effects on
all the others.
-/

namespace MathScript

open Machine Tree

/-! ### Storage -/

namespace Place

variable {p q r : Place}

theorem Shares.refl (p : Place) : p.Shares p := by
  cases p <;> rfl

theorem Shares.symm (shares : p.Shares q) : q.Shares p :=
  shares_iff.mpr (shares_iff.mp shares).symm

theorem Shares.trans (shares : p.Shares q) (shares' : q.Shares r) : p.Shares r :=
  shares_iff.mpr ((shares_iff.mp shares).trans (shares_iff.mp shares'))

theorem Shares.eq_of_host (host : p.isHost = true) (shares : p.Shares q) : p = q := by
  cases p with
  | scalar | vector | string => exact shares
  | slot | constant => cases host

/-- What is stored at a place once a number is written to it. -/
def numbered (p : Place) (x : Float) : Value → Value :=
  match p with
  | .vector _ | .string _ => id
  | _ => fun _ => .scalar x

end Place

namespace Machine

/-- What is stored at a place; nothing where there is no such place. -/
def stored? (m : Machine) : Place → Option Value
  | .slot i _ => m.locals[i]?
  | p => m.store.content? p

/-- What is stored at a place is changed, and nothing else. -/
structure Changes (p : Place) (f : Value → Value) (m m' : Machine) : Prop where
  there : ∀ q, p.Shares q → m'.stored? q = (m.stored? q).map f
  elsewhere : ∀ q, ¬ p.Shares q → m'.stored? q = m.stored? q
  memories : m'.store.memories = m.store.memories

variable {m n : Machine} {p q : Place}

theorem stored_host (host : p.isHost = true) (m : Machine) :
    m.stored? p = m.store.content? p := by
  cases p with
  | slot => cases host
  | constant | scalar | vector | string => rfl

theorem read_of_stored (same : m.stored? p = n.stored? p) : m.read p = n.read p := by
  cases p with
  | slot i kind =>
      have same : m.locals[i]? = n.locals[i]? := same
      simp only [read, slot, Array.getD_eq_getD_getElem?, same]
  | constant x => rfl
  | scalar | vector | string => exact read_of_content rfl same

theorem stored_setMemory (m : Machine) (memory : Memory) (n : Nat) (p : Place) :
    (m.setMemory memory n).stored? p = m.stored? p := by
  cases p <;> rfl

theorem changes_store {s : Store} {f : Value → Value} (host : p.isHost = true)
    (changes : m.store.Changes p f s) : Changes p f m { m with store := s } := by
  constructor
  · intro q shares
    obtain rfl := shares.eq_of_host host
    rw [stored_host host, stored_host host, changes.there]
  · intro q apart
    by_cases host' : q.isHost = true
    · rw [stored_host host', stored_host host']
      refine changes.elsewhere q ?_
      rintro rfl
      exact apart (.refl q)
    · cases q with
      | slot | constant => rfl
      | scalar | vector | string => exact absurd rfl host'
  · exact changes.memories

theorem changes_slot (m : Machine) (i : Nat) (kind : Kind) (f : Value → Value) :
    Changes (.slot i kind) f m { m with locals := m.locals.modify i f } := by
  constructor
  · intro q shares
    obtain ⟨kind', rfl⟩ := shares.symm.slot
    simp only [stored?, Array.getElem?_modify, if_true]
  · intro q apart
    cases q with
    | slot j kind' =>
        have apart : i ≠ j := apart
        simp only [stored?, Array.getElem?_modify, if_neg apart]
    | constant | scalar | vector | string => rfl
  · rfl

theorem changes_nothing {f : Value → Value}
    (kept : ∀ q, p.Shares q → (m.stored? q).map f = m.stored? q) : Changes p f m m :=
  ⟨fun q shares => (kept q shares).symm, fun _ _ => rfl, rfl⟩

theorem changes_setScalar (m : Machine) (p : Place) (x : Float) :
    Changes p (p.numbered x) m (m.setScalar p x) := by
  cases p with
  | scalar c => exact changes_store rfl (m.store.changes_setScalar c x)
  | slot i kind =>
      have changes := changes_slot m i kind fun _ => .scalar x
      rw [← setIfInBounds_eq_modify] at changes
      exact changes
  | constant y =>
      refine changes_nothing fun q shares => ?_
      cases q <;> first | rfl | cases shares
  | vector | string => exact changes_nothing fun q _ => Option.map_id_apply

theorem changes_modifyVector (m : Machine) (p : Place) (f : Array Float → Array Float) :
    Changes p (Value.mapVector f) m (m.modifyVector p f) := by
  cases p with
  | vector c => exact changes_store rfl (m.store.changes_modifyVector c f)
  | slot i kind => exact changes_slot m i kind (Value.mapVector f)
  | constant | scalar | string =>
      refine changes_nothing fun q shares => ?_
      cases q <;> cases shares
      simp [stored?, Store.content?, Value.mapVector, Function.comp_def]

theorem changes_modifyString (m : Machine) (p : Place) (f : String → String) :
    Changes p (Value.mapString f) m (m.modifyString p f) := by
  cases p with
  | string c => exact changes_store rfl (m.store.changes_modifyString c f)
  | slot i kind => exact changes_slot m i kind (Value.mapString f)
  | constant | scalar | vector =>
      refine changes_nothing fun q shares => ?_
      cases q <;> cases shares
      simp [stored?, Store.content?, Value.mapString, Function.comp_def]

/-! ### The same machine elsewhere -/

end Machine

/-- What is remembered, but for what the check remembers. -/
def Store.unheard (check : Option Check) (s : Store) : Array Nat :=
  match check with
  | none => s.memories
  | some c => s.memories.setIfInBounds c.memory.index 0

theorem Store.unheard_congr {s t : Store} (same : s.memories = t.memories) (check : Option Check) :
    s.unheard check = t.unheard check := by
  cases check with
  | none => exact same
  | some c => exact congrArg (·.setIfInBounds c.memory.index 0) same

namespace Machine

/-- The same machine outside of the storage of some places, reports aside: neither what has been
reported is compared nor what the check remembers of it. -/
structure Besides (check : Option Check) (places : List Place) (m n : Machine) : Prop where
  stored : ∀ p, (∀ q ∈ places, ¬ q.Shares p) → m.stored? p = n.stored? p
  memories : m.store.unheard check = n.store.unheard check

/-- The same machine, reports aside. -/
abbrev Aside (check : Option Check) : Machine → Machine → Prop := Besides check []

/-- The slots of the frame and all that the host stores are the same, and so is what is remembered,
but for what the check remembers. -/
theorem aside_iff {check : Option Check} : Aside check m n ↔
    m.locals = n.locals ∧ m.store.scalars = n.store.scalars ∧
      m.store.vectors = n.store.vectors ∧ m.store.strings = n.store.strings ∧
      m.store.unheard check = n.store.unheard check := by
  constructor
  · intro aside
    have stored : ∀ p, m.stored? p = n.stored? p := fun p => aside.stored p (by simp)
    refine ⟨?_, ?_, ?_, ?_, aside.memories⟩ <;> apply Array.ext_getElem? <;> intro i
    · exact stored (.slot i .scalar)
    · exact Option.map_injective (fun _ _ => Value.scalar.inj) (stored (.scalar ⟨i⟩))
    · exact Option.map_injective (fun _ _ => Value.vector.inj) (stored (.vector ⟨i⟩))
    · exact Option.map_injective (fun _ _ => Value.string.inj) (stored (.string ⟨i⟩))
  · rintro ⟨locals, scalars, vectors, strings, memories⟩
    refine ⟨fun p _ => ?_, memories⟩
    cases p <;> simp only [stored?, Store.content?, locals, scalars, vectors, strings]

namespace Besides

variable {check : Option Check} {places : List Place} {k : Machine}

theorem refl (m : Machine) : Besides check places m m := ⟨fun _ _ => rfl, rfl⟩

theorem symm (apart : Besides check places m n) : Besides check places n m :=
  ⟨fun p outside => (apart.stored p outside).symm, apart.memories.symm⟩

theorem trans (apart : Besides check places m n) (apart' : Besides check places n k) :
    Besides check places m k :=
  ⟨fun p outside => (apart.stored p outside).trans (apart'.stored p outside),
    apart.memories.trans apart'.memories⟩

theorem mono {places' : List Place} (apart : Besides check places m n) (more : places ⊆ places') :
    Besides check places' m n :=
  ⟨fun p outside => apart.stored p fun q inside => outside q (more inside), apart.memories⟩

/-- A change is the same on both. -/
theorem change {m' n' : Machine} {f : Value → Value} (apart : Besides check places m n)
    (changes : Changes p f m m') (changes' : Changes p f n n') : Besides check places m' n' := by
  constructor
  · intro q outside
    by_cases shares : p.Shares q
    · rw [changes.there q shares, changes'.there q shares, apart.stored q outside]
    · rw [changes.elsewhere q shares, changes'.elsewhere q shares, apart.stored q outside]
  · rw [Store.unheard_congr changes.memories, Store.unheard_congr changes'.memories, apart.memories]

end Besides

/-- Two machines in the middle of evaluations from `m₀` and `n₀`: the same outside of the places,
and at the places neither has changed anything. -/
structure Unused (check : Option Check) (places : List Place) (m₀ n₀ m n : Machine) : Prop where
  apart : Besides check places m n
  left : ∀ q ∈ places, ∀ p, q.Shares p → m.stored? p = m₀.stored? p
  right : ∀ q ∈ places, ∀ p, q.Shares p → n.stored? p = n₀.stored? p

namespace Unused

variable {check : Option Check} {places : List Place} {m₀ n₀ m' n' : Machine}

theorem start (apart : Besides check places m n) : Unused check places m n m n :=
  ⟨apart, fun _ _ _ _ => rfl, fun _ _ _ _ => rfl⟩

theorem change {f : Value → Value} (unused : Unused check places m₀ n₀ m n)
    (outside : ∀ q ∈ places, ¬ q.Shares p) (changes : Changes p f m m')
    (changes' : Changes p f n n') : Unused check places m₀ n₀ m' n' := by
  have away : ∀ q ∈ places, ∀ r, q.Shares r → ¬ p.Shares r := fun q inside r shares shares' =>
    outside q inside (shares.trans shares'.symm)
  constructor
  · exact unused.apart.change changes changes'
  · intro q inside r shares
    rw [changes.elsewhere r (away q inside r shares), unused.left q inside r shares]
  · intro q inside r shares
    rw [changes'.elsewhere r (away q inside r shares), unused.right q inside r shares]

/-- What is remembered has no part in it. -/
theorem remember (unused : Unused check places m₀ n₀ m n)
    (stored : ∀ p, m'.stored? p = m.stored? p) (stored' : ∀ p, n'.stored? p = n.stored? p)
    (memories : m'.store.unheard check = n'.store.unheard check) :
    Unused check places m₀ n₀ m' n' := by
  constructor
  · refine ⟨fun p outside => ?_, memories⟩
    rw [stored, stored', unused.apart.stored p outside]
  · intro q inside p shares
    rw [stored, unused.left q inside p shares]
  · intro q inside p shares
    rw [stored', unused.right q inside p shares]

end Unused

end Machine

/-- If there is a check, it decides by the access alone, and no native function shares its
memory. -/
structure Host.Impartial (host : Host) : Prop where
  judges : ∀ c, host.check = some c → ∀ kept kept' access,
    (c.judge kept access).1 = (c.judge kept' access).1
  memories : ∀ c, host.check = some c → ∀ (n : Nat) (r : Registered), host.natives[n]? = some r →
    r.memory ≠ c.memory

section

variable {host : Host} {places : List Place} {m₀ n₀ : Machine}

theorem Memory.index_ne {a b : Memory} (different : a ≠ b) : a.index ≠ b.index := fun same =>
  different (by
    cases a
    cases b
    exact congrArg Memory.mk same)

theorem Store.unheard_memory {check : Option Check} {s t : Store}
    (same : s.unheard check = t.unheard check) {memory : Memory}
    (other : ∀ c, check = some c → memory ≠ c.memory) : s.memory memory = t.memory memory := by
  cases check with
  | none =>
      have same : s.memories = t.memories := same
      rw [Store.memory, Store.memory, same]
  | some c =>
      have apart := Memory.index_ne (other c rfl).symm
      have at_ := congrArg (·[memory.index]?) same
      simp only [unheard, Array.getElem?_setIfInBounds_ne apart] at at_
      rw [Store.memory, Store.memory, Array.getD_eq_getD_getElem?, Array.getD_eq_getD_getElem?, at_]

theorem Store.unheard_setMemory {check : Option Check} {s t : Store}
    (same : s.unheard check = t.unheard check) {memory : Memory}
    (other : ∀ c, check = some c → memory ≠ c.memory) (n : Nat) :
    (s.setMemory memory n).unheard check = (t.setMemory memory n).unheard check := by
  cases check with
  | none =>
      have same : s.memories = t.memories := same
      simp only [unheard, setMemory, same]
  | some c =>
      have apart := Memory.index_ne (other c rfl)
      simp only [unheard, setMemory] at same ⊢
      rw [Array.setIfInBounds_comm _ _ apart, same, Array.setIfInBounds_comm _ _ apart]

theorem agree_unused_modify {f : Machine → Machine} {p : Place} {g : Value → Value}
    (outside : ∀ q ∈ places, ¬ q.Shares p) (changes : ∀ m, Changes p g m (f m)) :
    Agree (Unused host.check places m₀ n₀) (modify f : Eval PUnit) (modify f) :=
  fun m n unused => ⟨rfl, unused.change outside (changes m) (changes n)⟩

theorem Host.Impartial.numeric (impartial : host.Impartial) (native : Nat) (vs : List Value) :
    Agree (Unused host.check places m₀ n₀) (Eval.callNumeric host native vs)
      (Eval.callNumeric host native vs) := by
  intro m n unused
  unfold Eval.callNumeric
  cases registered : host.natives[native]? with
  | none => exact ⟨rfl, unused⟩
  | some r =>
      have own := fun c check => impartial.memories c check native r registered
      obtain ⟨function, memory⟩ := r
      have kept := Store.unheard_memory unused.apart.memories own
      cases function with
      | scalar arity run =>
          simp only [kept]
          exact ⟨rfl, unused.remember (stored_setMemory m memory _) (stored_setMemory n memory _)
            (Store.unheard_setMemory unused.apart.memories own _)⟩
      | vararg run =>
          simp only [kept]
          exact ⟨rfl, unused.remember (stored_setMemory m memory _) (stored_setMemory n memory _)
            (Store.unheard_setMemory unused.apart.memories own _)⟩
      | generic signature run => exact ⟨rfl, unused⟩

theorem Host.Impartial.answer (impartial : host.Impartial) (native overload : Nat)
    (vs : List Value) :
    Agree (Unused host.check places m₀ n₀) (Acts.answer host native overload vs)
      (Acts.answer host native overload vs) := by
  have asked : Agree (Unused host.check places m₀ n₀) (Eval.ask host native overload vs)
      (Eval.ask host native overload vs) := by
    intro m n unused
    unfold Eval.ask
    cases registered : host.natives[native]? with
    | none => exact ⟨rfl, unused⟩
    | some r =>
        have own := fun c check => impartial.memories c check native r registered
        obtain ⟨function, memory⟩ := r
        have kept := Store.unheard_memory unused.apart.memories own
        cases function with
        | generic signature run =>
            simp only [kept]
            exact ⟨rfl, unused.remember (stored_setMemory m memory _)
              (stored_setMemory n memory _) (Store.unheard_setMemory unused.apart.memories own _)⟩
        | scalar | vararg => exact ⟨rfl, unused⟩
  apply agree_bind asked
  intro reply
  match reply with
  | none => exact agree_pure _
  | some ⟨.error f, _, _⟩ => exact agree_throw _
  | some ⟨.ok x, params, _⟩ => exact agree_pure _

/-- A machine once its check has been told of an access. -/
def Machine.telling (m : Machine) (c : Check) (access : Access) : Machine :=
  { m.setMemory c.memory (c.judge (m.store.memory c.memory) access).2 with
    reports := m.reports.push access }

theorem report_eq (c : Check) (b : Binding) (length : Nat) (index : Int) (m : Machine) :
    Eval.report (some c) b length index m =
      match (c.judge (m.store.memory c.memory) ⟨b.name, index, length⟩).1 with
      | some f => .error (.fault f) (m.telling c ⟨b.name, index, length⟩)
      | none => .ok () (m.telling c ⟨b.name, index, length⟩) := by
  have asked : (modifyGet fun m : Machine => (m.store.memory c.memory, m) : Eval Nat) m =
      .ok (m.store.memory c.memory) m := rfl
  rw [Eval.report, bind_completed asked, telling]
  rcases c.judge (m.store.memory c.memory) ⟨b.name, index, length⟩ with ⟨_ | f, kept⟩ <;> rfl

/-- What a check remembers and is told goes unheard. -/
theorem Machine.aside_telling (m : Machine) (c : Check) (access : Access) :
    Aside (some c) m (m.telling c access) := by
  constructor
  · intro p _
    exact (stored_setMemory m c.memory _ p).symm
  · simp [telling, setMemory, Store.unheard, Store.setMemory]

namespace Eval

theorem aside_report {check : Option Check} {b : Binding} {length : Nat} {index : Int}
    {m m' : Machine} (passed : report check b length index m = .ok () m') :
    Aside check m m' := by
  cases check with
  | none =>
      cases passed
      exact .refl m
  | some c =>
      rw [report_eq] at passed
      split at passed
      · cases passed
      · cases passed
        exact m.aside_telling c _

theorem element?_eq (check : Option Check) (b : Binding) (index : Float) (m : Machine) :
    element? check b index m =
      match elementAt? (m.vectorAt b.place) (Index.ofFloat index) with
      | some x => .ok (some x) m
      | none =>
          match report check b (m.vectorAt b.place).size (Index.ofFloat index) m with
          | .ok _ m' => .ok none m'
          | .error e m' => .error e m' := by
  simp only [element?, vectorOf, bind, EStateM.bind]
  cases elementAt? (m.vectorAt b.place) (Index.ofFloat index) with
  | some x => rfl
  | none =>
      simp only [EStateM.bind]
      cases report check b (m.vectorAt b.place).size (Index.ofFloat index) m <;> rfl

/-- Reading an element changes nothing but what the check is told. -/
theorem element?_ok {check : Option Check} {b : Binding} {index : Float} {m m' : Machine}
    {found : Option Float} (read : element? check b index m = .ok found m') :
    found = elementAt? (m.vectorAt b.place) (Index.ofFloat index) ∧ Aside check m m' := by
  rw [element?_eq] at read
  split at read
  · next x at_ =>
      cases read
      exact ⟨at_.symm, .refl m⟩
  · next at_ =>
      split at read
      · next passed =>
          cases read
          exact ⟨at_.symm, aside_report passed⟩
      · cases read

end Eval

theorem Host.Impartial.report (impartial : host.Impartial) (b : Binding) (length : Nat)
    (index : Int) : Agree (Unused host.check places m₀ n₀) (Eval.report host.check b length index)
      (Eval.report host.check b length index) := by
  cases check : host.check with
  | none => exact agree_pure ()
  | some c =>
      intro m n unused
      have told : Unused (some c) places m₀ n₀ (m.telling c ⟨b.name, index, length⟩)
          (n.telling c ⟨b.name, index, length⟩) := by
        have left := m.aside_telling c ⟨b.name, index, length⟩
        have right := n.aside_telling c ⟨b.name, index, length⟩
        refine unused.remember (fun p => (left.stored p (by simp)).symm)
          (fun p => (right.stored p (by simp)).symm) ?_
        rw [← left.memories, ← right.memories, unused.apart.memories]
      rw [report_eq, report_eq, impartial.judges c check _ (n.store.memory c.memory)]
      cases (c.judge (n.store.memory c.memory) ⟨b.name, index, length⟩).1 with
      | none => exact ⟨rfl, told⟩
      | some f => exact ⟨rfl, told⟩

theorem Host.Impartial.acts (impartial : host.Impartial) :
    (Acts.machine host).InStep (Acts.machine host) (Agree (Unused host.check places m₀ n₀))
      (fun p => ∀ q ∈ places, ¬ q.Shares p)
      fun i => ∀ q ∈ places, ¬ q.Shares (.slot i .scalar) where
  read p outside := fun _ _ unused =>
    ⟨read_of_stored (unused.apart.stored p outside), unused⟩
  setScalar p x outside := agree_unused_modify outside fun m => changes_setScalar m p x
  modifyVector p f outside := agree_unused_modify outside fun m => changes_modifyVector m p f
  modifyString p f outside := agree_unused_modify outside fun m => changes_modifyString m p f
  declare slot v outside := agree_unused_modify outside fun m => by
    have changes := changes_slot m slot .scalar fun _ => v
    rw [← setIfInBounds_eq_modify] at changes
    exact changes
  numeric := impartial.numeric
  ask := impartial.answer
  report := impartial.report

end

/-! ### Evaluations that make no use of a place -/

/-- No code that runs names the place or declares it. -/
def Host.Ignores (host : Host) (p : Place) (t : Tree) : Prop :=
  ∀ u, host.Code p t u → (∀ b, u.Binds b → ¬ p.Shares b.place) ∧
    ∀ i shape, u.Declares i shape → ¬ p.Shares (.slot i .scalar)

theorem Host.Ignores.child {host : Host} {p : Place} {t u : Tree} (ignores : host.Ignores p t)
    (below : u ∈ t.children) : host.Ignores p u := by
  have inside : u ∈ t.nodes := mem_nodes_child (mem_nodes_self t) below
  have shared : ∀ w, host.Code p u w → w = u ∨ host.Code p t w := by
    intro w code
    induction code with
    | own => exact .inl rfl
    | body shared _ called found ih =>
        rcases ih with rfl | code
        · obtain ⟨node, within, calls⟩ := called
          exact .inr (.body shared .own ⟨node, nodes_subset inside within, calls⟩ found)
        · exact .inr (.body shared code called found)
  intro w code
  rcases shared w code with rfl | code
  · constructor
    · rintro b ⟨node, within, bound⟩
      exact (ignores t .own).1 b ⟨node, nodes_subset inside within, bound⟩
    · rintro i shape ⟨node, within, declared⟩
      exact (ignores t .own).2 i shape ⟨node, nodes_subset inside within, declared⟩
  · exact ignores w code

namespace Machine

variable {m n m₀ n₀ m₁ n₁ m' n' : Machine} {check : Option Check} {places : List Place}

/-- The places that a called function can reach. -/
def hosts (places : List Place) : List Place := places.filter Place.isHost

theorem stored_framing (host : p.isHost = true) (m : Machine) (locals : Array Value) :
    (m.framing locals).stored? p = m.stored? p := by
  cases p with
  | slot | constant => cases host
  | scalar | vector | string => rfl

theorem outside_hosts {p : Place} (host : p.isHost = true)
    (outside : ∀ q ∈ hosts places, ¬ q.Shares p) : ∀ q ∈ places, ¬ q.Shares p := by
  intro q inside shares
  have same := shares.symm.eq_of_host host
  subst same
  exact outside p (List.mem_filter.mpr ⟨inside, host⟩) shares

/-- A body starts on the same frame on both machines. -/
theorem Besides.enter (apart : Besides check places m n) (locals : Array Value) :
    Besides check (hosts places) (m.framing locals) (n.framing locals) := by
  refine ⟨fun p outside => ?_, apart.memories⟩
  by_cases host : p.isHost = true
  · rw [stored_framing host, stored_framing host, apart.stored p (outside_hosts host outside)]
  · cases p with
    | slot | constant => rfl
    | scalar | vector | string => exact absurd rfl host

/-- Afterwards each machine has its own frame again. -/
theorem Unused.leave {locals : Array Value} (unused : Unused check places m₀ n₀ m n)
    (body : Unused check (hosts places) (m.framing locals) (n.framing locals) m' n') :
    Unused check places m₀ n₀ (m'.framing m.locals) (n'.framing n.locals) := by
  have reached : ∀ q ∈ places, ∀ p, q.Shares p → p.isHost = true → q ∈ hosts places := by
    intro q inside p shares host
    obtain rfl := shares.symm.eq_of_host host
    exact List.mem_filter.mpr ⟨inside, host⟩
  constructor
  · refine ⟨fun p outside => ?_, body.apart.memories⟩
    by_cases host : p.isHost = true
    · rw [stored_framing host, stored_framing host]
      exact body.apart.stored p fun q inside => outside q (List.mem_filter.mp inside).1
    · cases p with
      | slot => exact unused.apart.stored _ outside
      | constant => rfl
      | scalar | vector | string => exact absurd rfl host
  · intro q inside p shares
    by_cases host : p.isHost = true
    · rw [stored_framing host, body.left q (reached q inside p shares host) p shares,
        stored_framing host, unused.left q inside p shares]
    · cases p with
      | slot => exact unused.left q inside _ shares
      | constant => rfl
      | scalar | vector | string => exact absurd rfl host
  · intro q inside p shares
    by_cases host : p.isHost = true
    · rw [stored_framing host, body.right q (reached q inside p shares host) p shares,
        stored_framing host, unused.right q inside p shares]
    · cases p with
      | slot => exact unused.right q inside _ shares
      | constant => rfl
      | scalar | vector | string => exact absurd rfl host

end Machine

namespace Host

variable {host : Host} {places : List Place} {m₀ n₀ : Machine} {t : Tree}

theorem Impartial.kernel (impartial : host.Impartial) :
    (Machine.kernel host).InStep (Machine.kernel host) (Agree (Unused host.check places m₀ n₀))
      (fun b => ∀ q ∈ places, ¬ q.Shares b.place)
      fun i _ => ∀ q ∈ places, ¬ q.Shares (.slot i .scalar) := by
  rw [← Acts.Machine.kernel_machine]
  exact impartial.acts.kernel (agree_lockstep _).toStepwise Host.enter Host.enter

/-- If the calls go side by side, so does the tree. -/
theorem Impartial.agree_tree (impartial : host.Impartial) {invoke : Invoke}
    (ignores : ∀ p ∈ places, host.Ignores p t)
    (invokes : ∀ n, t.Calls n → ∀ q, host.body? n = some q → ∀ name args,
      Agree (Unused host.check places m₀ n₀) (invoke name q args) (invoke name q args)) :
    Agree (Unused host.check places m₀ n₀) (t.eval host invoke) (t.eval host invoke) := by
  rw [← walk_kernel]
  refine Kernel.InStep.walk (agree_lockstep _) impartial.kernel (.inl rfl) (fun _ => rfl)
    (fun n q called => invokes n called q) (t.every_own.mono fun node own => ⟨?_, ?_, own.calls⟩)
  · exact fun b bound p inside => (ignores p inside t .own).1 b (own.bindings b bound)
  · exact fun d declared p inside =>
      (ignores p inside t .own).2 d.1 d.2 (own.declares d declared)

/-- What makes no use of the places goes the same way on both machines. -/
theorem Impartial.agree (impartial : host.Impartial) (ignores : ∀ p ∈ places, host.Ignores p t)
    (depth : Nat) : Agree (Unused host.check places m₀ n₀) (t.eval host (host.invoke depth))
      (t.eval host (host.invoke depth)) := by
  induction depth generalizing t places m₀ n₀ with
  | zero => exact impartial.agree_tree ignores fun _ _ _ _ _ _ => agree_throw _
  | succ depth ih =>
      refine impartial.agree_tree ignores fun n called q found name args m n unused => ?_
      have within : ∀ p ∈ hosts places, host.Ignores p q.tree := fun p inside u code => by
        obtain ⟨listed, shared⟩ := List.mem_filter.mp inside
        exact ignores p listed u (.trans (.body shared .own called found) code)
      have body := ih within _ _ (.start (unused.apart.enter (frame q args)))
      simp only [invoke, enter]
      exact Flow.sameEnd_enter body fun m' n' => unused.leave

theorem Impartial.agree_target (impartial : host.Impartial) {t : Target Tree}
    (ignores : ∀ i ∈ t.indices, ∀ p ∈ places, host.Ignores p i) (depth : Nat) :
    Agree (Unused host.check places m₀ n₀) (evalTarget host (host.invoke depth) t)
      (evalTarget host (host.invoke depth) t) := by
  have indices : ∀ i : Option Tree, (∀ u ∈ i.toList, ∀ p ∈ places, host.Ignores p u) →
      Agree (Unused host.check places m₀ n₀) (evalIndex host (host.invoke depth) i)
        (evalIndex host (host.invoke depth) i) := by
    intro i ignores
    cases i with
    | none => exact agree_pure none
    | some u =>
        simp only [evalIndex]
        exact agree_bind (impartial.agree (ignores u (by simp)) depth) fun v => agree_pure _
  cases t with
  | whole b => exact agree_pure _
  | element b i =>
      simp only [evalTarget]
      exact agree_bind (impartial.agree (ignores i (by simp [Target.indices])) depth)
        fun v => agree_pure _
  | range b first last =>
      simp only [evalTarget]
      refine agree_bind (indices first fun u inside => ignores u ?_) fun x =>
        agree_bind (indices last fun u inside => ignores u ?_) fun y => agree_pure _
      · exact List.mem_append_left _ inside
      · exact List.mem_append_right _ inside

end Host

/-- It completes without effects, reports aside. -/
def Eval.Quiet {α : Type} (check : Option Check) (x : Eval α) (m : Machine) (a : α) : Prop :=
  ∃ m', x m = .ok a m' ∧ Aside check m m'

theorem SameEnd.of_ok {ε σ τ α : Type} {R : σ → τ → Prop} {a : α} {s : σ}
    {r : EStateM.Result ε τ α} (same : SameEnd R (.ok a s) r) : ∃ t, r = .ok a t ∧ R s t := by
  cases r with
  | ok b t =>
      obtain ⟨rfl, related⟩ := same
      exact ⟨t, rfl, related⟩
  | error e t => exact same.elim

/-- What goes the same way on both machines and is quiet on one is quiet on the other. -/
theorem Agree.quiet {α : Type} {check : Option Check} {places : List Place} {m n : Machine}
    {x : Eval α} {a : α} (same : Agree (Unused check places m n) x x)
    (quiet : Eval.Quiet check x m a) (apart : Besides check places m n) :
    Eval.Quiet check x n a := by
  obtain ⟨m', done, kept⟩ := quiet
  obtain ⟨n', ended, unused⟩ := SameEnd.of_ok (done ▸ same m n (.start apart))
  refine ⟨n', ended, fun p _ => ?_, ?_⟩
  · by_cases inside : ∃ q ∈ places, q.Shares p
    · obtain ⟨q, inside, shares⟩ := inside
      exact (unused.right q inside p shares).symm
    · have outside : ∀ q ∈ places, ¬ q.Shares p := fun q inside' shares =>
        inside ⟨q, inside', shares⟩
      rw [← apart.stored p outside, kept.stored p (by simp), unused.apart.stored p outside]
  · rw [← apart.memories, kept.memories, unused.apart.memories]

section

variable {host : Host} (impartial : host.Impartial) {depth : Nat} {m n : Machine}

include impartial

/-- Whatever a check has been told before, an evaluation that is completed is completed alike. -/
theorem Host.Impartial.again {t : Tree} {v : Value} {m' : Machine}
    (done : t.eval host (host.invoke depth) m = .ok v m') (aside : Aside host.check m n) :
    ∃ n', t.eval host (host.invoke depth) n = .ok v n' ∧ Aside host.check m' n' := by
  have same : SameEnd _ (t.eval host (host.invoke depth) m) _ :=
    impartial.agree (by simp) depth m n (.start aside)
  rw [done] at same
  obtain ⟨n', done', unused⟩ := same.of_ok
  exact ⟨n', done', unused.apart⟩

theorem Host.Impartial.aims_again {t : Target Tree} {x : Target Float}
    (quiet : Eval.Quiet host.check (evalTarget host (host.invoke depth) t) m x)
    (aside : Aside host.check m n) :
    Eval.Quiet host.check (evalTarget host (host.invoke depth) t) n x :=
  (impartial.agree_target (by simp) depth).quiet quiet aside

end

end MathScript
