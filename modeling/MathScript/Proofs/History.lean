import MathScript.World
import MathScript.Proofs.Programs

/-!
Histories of a world. An action is one change a host asks for, with what is refused of it left
out, or any change of storage, as an evaluation makes it. Natives and functions are never
replaced or given up; so a world keeps offering what it has offered once, and every function
stays compiled for the number of parameters it is offered with.
-/

namespace MathScript

/-- A program as it was read from a text, before anything of it was folded. -/
def Program.Read (p : Program) : Prop :=
  ∃ table settings params text, parse table settings params text = .ok p

/-- What compilation makes for so many parameters: a program that is well built as it was read,
folded or not, with a slot of its own for every declaration. -/
structure Program.Compiled (offers : Grant → Prop) (arity : Nat) (p : Program) : Prop where
  plain : ∃ q : Program, p.Settles q ∧ q.Read ∧ q.BuiltFor offers arity
  distinct : p.tree.declared.Nodup

theorem Program.BuiltFor.mono {offers offers' : Grant → Prop} {arity : Nat} {p : Program}
    (built : p.BuiltFor offers arity) (kept : ∀ g, offers g → offers' g) :
    p.BuiltFor offers' arity := by
  obtain ⟨layout, size, params, names, tree⟩ := built
  exact ⟨layout, size, params, fun slot inside => kept _ (names slot inside),
    tree.mono kept List.prefix_rfl (List.Subset.refl _)⟩

theorem Program.Compiled.mono {offers offers' : Grant → Prop} {arity : Nat} {p : Program}
    (compiled : p.Compiled offers arity) (kept : ∀ g, offers g → offers' g) :
    p.Compiled offers' arity := by
  obtain ⟨⟨q, settles, read, built⟩, distinct⟩ := compiled
  exact ⟨⟨q, settles, read, built.mono kept⟩, distinct⟩

theorem compile_ok {table : Table} {settings : Settings} {params : List String} {text : String}
    {p : Program} (compiled : compile table settings params text = .ok p) :
    ∃ q, parse table settings params text = .ok q ∧ p = q.settle settings.constantFolding := by
  unfold compile at compiled
  cases parsed : parse table settings params text with
  | error ds =>
      rw [parsed] at compiled
      cases compiled
  | ok q =>
      rw [parsed] at compiled
      exact ⟨q, rfl, (Except.ok.inj compiled).symm⟩

theorem compile_compiled {table : Table} {settings : Settings} {params : List String}
    {text : String} {p : Program} (compiled : compile table settings params text = .ok p) :
    p.Compiled (table.GrantsTo (declaredNames settings params text.toList)) params.length := by
  obtain ⟨q, parsed, rfl⟩ := compile_ok compiled
  obtain ⟨built, distinct⟩ := parse_built parsed
  have read : q.Read := ⟨table, settings, params, text, parsed⟩
  refine ⟨⟨q, q.settle_settles _, read, built⟩, ?_⟩
  -- Folding may drop declarations, so what was distinct stays distinct.
  unfold Program.settle
  split
  · exact distinct.sublist (Tree.declared_fold q.tree)
  · exact distinct

namespace World

/-- The function behind a number is the one that calls of it were checked for. -/
def Offers (w : World) : Callable → Prop
  | .composed n arity => ∃ f : Composed, w.functions[n]? = some f ∧ f.params.length = arity
  | f => ∃ (n : Nat) (r : Registered), f.native? = some n ∧ w.natives[n]? = some r ∧
      r.native.Answers f

/-- What is granted to some text by some table, now or later. -/
def Grants (w : World) : Grant → Prop
  | .call _ f => w.Offers f
  | .use .. => True
  | .write => True
  | .declare .. => True

theorem grants_of_offers {w : World} {t : Table} {names : List (String × Bool)}
    (offers : ∀ f, t.Offers f → w.Offers f) (g : Grant) (granted : t.GrantsTo names g) :
    w.Grants g := by
  cases g with
  | call name f =>
      rcases granted with known | ⟨d, -, other⟩
      · exact offers f ⟨name, known⟩
      · cases other
  | use | write | declare => trivial

structure Sound (w : World) : Prop where
  tables : ∀ name f, (w.table name).Offers f → w.Offers f
  functions : ∀ (n : Nat) (f : Composed), w.functions[n]? = some f →
    f.program.Compiled w.Grants f.params.length

/-- What stands behind a number stays. -/
structure Grows (w w' : World) : Prop where
  natives : ∀ (n : Nat) (r : Registered), w.natives[n]? = some r → w'.natives[n]? = some r
  functions : ∀ (n : Nat) (f : Composed), w.functions[n]? = some f → w'.functions[n]? = some f

theorem Grows.refl (w : World) : w.Grows w := ⟨fun _ _ => id, fun _ _ => id⟩

theorem Grows.trans {w w' w'' : World} (first : w.Grows w') (rest : w'.Grows w'') :
    w.Grows w'' :=
  ⟨fun n r found => rest.natives n r (first.natives n r found),
    fun n f found => rest.functions n f (first.functions n f found)⟩

theorem Grows.offers {w w' : World} (grows : w.Grows w') (f : Callable) (offered : w.Offers f) :
    w'.Offers f := by
  cases f with
  | composed n arity =>
      obtain ⟨g, found, same⟩ := offered
      exact ⟨g, grows.functions n g found, same⟩
  | scalar | vararg | generic =>
      obtain ⟨n, r, numbered, found, answers⟩ := offered
      exact ⟨n, r, numbered, grows.natives n r found, answers⟩

theorem Grows.grants {w w' : World} (grows : w.Grows w') (g : Grant) (granted : w.Grants g) :
    w'.Grants g := by
  cases g with
  | call _ f => exact grows.offers f granted
  | use | write | declare => trivial

/-! ### What one change does -/

/-- A sound world that has come from `w`. -/
structure Since (w w' : World) : Prop where
  grows : w.Grows w'
  sound : w'.Sound

variable {w w' w'' : World}

theorem Sound.since (sound : w.Sound) : w.Since w := ⟨Grows.refl w, sound⟩

theorem Since.trans (first : w.Since w') (rest : w'.Since w'') : w.Since w'' :=
  ⟨first.grows.trans rest.grows, rest.sound⟩

/-- Functions are added compiled, and no table offers more than there is. -/
theorem Sound.grown (sound : w.Sound) (grows : w.Grows w')
    (added : ∀ (n : Nat) (f : Composed), w'.functions[n]? = some f →
      w.functions[n]? = some f ∨ f.program.Compiled w'.Grants f.params.length)
    (tables : ∀ name f, (w'.table name).Offers f → w'.Offers f) : w.Since w' := by
  refine ⟨grows, tables, fun n f found => ?_⟩
  rcases added n f found with old | new
  · exact (sound.functions n f old).mono grows.grants
  · exact new

/-- Natives and functions stay, and the tables offer what they did. -/
theorem Sound.kept (sound : w.Sound) (natives : w'.natives = w.natives)
    (functions : w'.functions = w.functions)
    (tables : ∀ name f, (w'.table name).Offers f → w.Offers f) : w.Since w' := by
  have grows : w.Grows w' := ⟨fun n r => by simp [natives], fun n f => by simp [functions]⟩
  refine sound.grown grows (fun n f found => ?_) fun name f offered => ?_
  · rw [functions] at found
    exact .inl found
  · exact grows.offers f (tables name f offered)

theorem Sound.withStore (sound : w.Sound) (store : Store) : w.Since { w with store := store } :=
  sound.kept rfl rfl sound.tables

theorem Sound.withCompositor (sound : w.Sound) (name : String) (c : Compositor) :
    w.Since (w.withCompositor name c) :=
  sound.kept rfl rfl sound.tables

theorem Since.withCompositor (since : w.Since w') (name : String) (c : Compositor) :
    w.Since (w'.withCompositor name c) :=
  since.trans (since.sound.withCompositor name c)

theorem table_withTable (w : World) (name other : String) (t : Table) :
    (w.withTable name t).table other = if other = name then t else w.table other := by
  unfold table withTable
  split
  · next same => rw [same, Named.lookup_put_self, Option.getD_some]
  · next different => rw [Named.lookup_put_of_ne different]

theorem compositor_withCompositor (w : World) (name other : String) (c : Compositor) :
    (w.withCompositor name c).compositor other = if other = name then c else w.compositor other := by
  unfold compositor withCompositor
  split
  · next same => rw [same, Named.lookup_put_self, Option.getD_some]
  · next different => rw [Named.lookup_put_of_ne different]

theorem Sound.withTable (sound : w.Sound) (name : String) {t : Table}
    (offers : ∀ f, t.Offers f → w.Offers f) : w.Since (w.withTable name t) := by
  refine sound.kept rfl rfl fun other f offered => ?_
  rw [table_withTable] at offered
  split at offered
  · exact offers f offered
  · exact sound.tables other f offered

/-- A change that a sound world outlasts, refused or not. -/
def Orderly {ε α : Type} (x : EStateM ε World α) : Prop := ∀ w, Keeps (Since w) x

theorem orderly_of_since {ε α : Type} {x : EStateM ε World α}
    (since : ∀ w, w.Sound → Ends x w (fun _ => w.Since) fun _ => w.Since) : Orderly x := by
  intro w w' before
  exact (since w' before.sound).mono (fun _ _ after => before.trans after)
    fun _ _ after => before.trans after

theorem orderly_insert (table name : String) {s : Symbol} (plain : ∀ f, s ≠ .function f) :
    Orderly (insert table name s) := by
  apply orderly_of_since
  intro w sound
  unfold Ends insert
  cases inserted : (w.table table).insert name s with
  | error e => exact sound.since
  | ok t =>
      apply sound.withTable table
      intro f offered
      rcases Table.insert_offers inserted offered with old | new
      · exact sound.tables table f old
      · exact absurd new (plain f)

theorem orderly_store {ε α : Type} (next : Store → α × Store) :
    Orderly (modifyGet fun w => let (a, store) := next w.store; (a, { w with store := store }) :
      EStateM ε World α) :=
  orderly_of_since fun _ sound => sound.withStore _

theorem orderly_addScalar (table name : String) (x : Float) : Orderly (addScalar table name x) :=
  fun w => keeps_bind (orderly_store (fun store => (store.newScalar x).swap) w) fun _ =>
    orderly_insert table name (by simp) w

theorem orderly_addVector (table name : String) (xs : Array Float) :
    Orderly (addVector table name xs) :=
  fun w => keeps_bind (orderly_store (fun store => (store.newVector xs).swap) w) fun _ =>
    orderly_insert table name (by simp) w

theorem orderly_addString (table name text : String) : Orderly (addString table name text) :=
  fun w => keeps_bind (orderly_store (fun store => (store.newString text).swap) w) fun _ =>
    orderly_insert table name (by simp) w

theorem orderly_addConstants (table : String) : Orderly (addConstants table) :=
  fun w => keeps_forM (fun _ => orderly_insert table _ (by simp) w) Table.constants

theorem orderly_share (table name source old : String) : Orderly (share table name source old) := by
  intro w
  apply keeps_bind (fun _ before => before)
  intro before
  cases found : (before.table source).find? old with
  | none => exact keeps_pure false
  | some s =>
      -- Only variables and constants are shared, no functions.
      dsimp only
      split
      · next stored =>
          have plain : ∀ f, s ≠ .function f := by
            intro f same
            rw [same] at stored
            cases stored
          exact keeps_bind (orderly_insert table name plain w) fun _ => keeps_pure true
      · exact keeps_pure false

theorem orderly_remove (table name : String) : Orderly (remove table name) := by
  apply orderly_of_since
  intro w sound
  unfold Ends remove
  cases removed : (w.table table).remove name with
  | error e => exact sound.since
  | ok t =>
      exact sound.withTable table fun f offered =>
        sound.tables table f (Table.remove_offers removed offered)

/-! ### Functions -/

/-- The natives that are there stay; those that are added follow them in order. -/
theorem addMemories (functions : List Native) (w : World) :
    w.Grows (functions.foldl addMemory w) ∧ (functions.foldl addMemory w).tables = w.tables ∧
      (functions.foldl addMemory w).functions = w.functions ∧
      ∀ (i : Nat) (f : Native), functions[i]? = some f → ∃ memory,
        (functions.foldl addMemory w).natives[w.natives.size + i]? = some ⟨f, memory⟩ := by
  induction functions generalizing w with
  | nil => exact ⟨Grows.refl w, rfl, rfl, by simp⟩
  | cons f rest ih =>
      obtain ⟨grows, tables, functions, added⟩ := ih (w.addMemory f)
      have first : w.Grows (w.addMemory f) := by
        refine ⟨fun n r found => ?_, fun _ _ => id⟩
        obtain ⟨bound, -⟩ := Array.getElem?_eq_some_iff.mp found
        simp only [addMemory, Array.getElem?_push, Nat.ne_of_lt bound, if_false, found]
      -- The first one is the native behind the old ones, the others follow by induction.
      refine ⟨first.trans grows, tables, functions, fun i g inside => ?_⟩
      cases i with
      | zero =>
          obtain rfl : f = g := by simpa using inside
          refine ⟨w.store.newMemory.2, grows.natives _ _ ?_⟩
          simp [addMemory]
      | succ i =>
          obtain ⟨memory, found⟩ := added i g inside
          refine ⟨memory, ?_⟩
          rw [← found]
          congr 1
          simp [addMemory]
          omega

theorem orderly_addNatives (table : String) (functions : List (String × Native)) :
    Orderly (addNatives table functions) := by
  apply orderly_of_since
  intro w sound
  unfold Ends addNatives
  cases inserted : (w.table table).insertNatives w.natives.size functions with
  | error e => exact sound.since
  | ok t =>
      obtain ⟨grows, tables, composed, added⟩ := addMemories (functions.map Prod.snd) w
      have since : w.Since ((functions.map Prod.snd).foldl addMemory w) := by
        apply sound.grown grows (fun n f found => .inl (composed ▸ found))
        intro name f offered
        rw [World.table, tables] at offered
        exact grows.offers f (sound.tables name f offered)
      refine since.trans (since.sound.withTable table fun f offered => ?_)
      rcases Table.insertNatives_offers inserted offered with
        old | ⟨i, e, inside, numbered, answers⟩
      · exact grows.offers f (sound.tables table f old)
      · obtain ⟨memory, found⟩ := added i e.2 (by simp [inside])
        cases f with
        | composed => cases numbered
        | scalar | vararg | generic => exact ⟨_, _, numbered, found, answers⟩

/-- The bodies of a group are compiled against the table that offers the group. -/
theorem orderly_define (table : String) (group : List Definition) :
    Orderly (define table group) := by
  apply orderly_of_since
  intro w sound
  unfold Ends define
  have ends := Compositor.add_ends (w.compositor table) w.functions group (w.table table)
  cases added : (w.compositor table).add w.functions group (w.table table) with
  | error e t =>
      obtain rfl : t = w.table table := ends.of_error added
      exact sound.withTable table (sound.tables table)
  | ok result t =>
      obtain ⟨c, functions⟩ := result
      obtain ⟨declared, -, -, compiled, bodies, rfl⟩ := ends.of_ok added
      obtain ⟨size, each⟩ := Compositor.compileAll_ok bodies
      -- The functions stand behind their numbers before the table that offers them is put in place.
      let after : World := { w with functions := w.functions ++ compiled.toArray }
      have grows : w.Grows after := by
        refine ⟨fun _ _ => id, fun n f found => ?_⟩
        obtain ⟨bound, -⟩ := Array.getElem?_eq_some_iff.mp found
        rw [← found]
        exact Array.getElem?_append_left bound
      have offers : ∀ f, t.Offers f → after.Offers f := by
        intro f offered
        rcases declared.offers offered with old | ⟨i, d, inside, rfl⟩
        · exact grows.offers f (sound.tables table f old)
        · obtain ⟨bound, -⟩ := List.getElem?_eq_some_iff.mp inside
          have there : compiled[i]? = some compiled[i] := List.getElem?_eq_getElem (by omega)
          obtain ⟨e, same, -, params, -⟩ := each i _ there
          obtain rfl : d = e := Option.some.inj (inside.symm.trans same)
          refine ⟨compiled[i], ?_, by rw [params]⟩
          rw [Array.getElem?_append_right (Nat.le_add_right _ _), Nat.add_sub_cancel_left]
          simp
      have since : w.Since after := by
        refine sound.grown grows (fun n f found => ?_) fun name f offered => ?_
        · rw [Array.getElem?_append] at found
          split at found
          · exact .inl found
          · obtain ⟨d, -, -, params, body⟩ := each _ f (by simpa using found)
            rw [params]
            exact .inr ((compile_compiled body).mono (grants_of_offers offers))
        · exact grows.offers f (sound.tables name f offered)
      exact (since.trans (since.sound.withTable table offers)).withCompositor table c

theorem orderly_undefine (table name : String) : Orderly (undefine table name) := by
  apply orderly_of_since
  intro w sound
  unfold Ends undefine Compositor.remove
  cases known : (w.compositor table).find? name with
  | none => exact sound.withCompositor table _
  | some n =>
      cases removed : (w.table table).remove name with
      | error e =>
          exact sound.withCompositor table _
      | ok t =>
          refine (sound.withTable table fun f offered => ?_).withCompositor table _
          exact sound.tables table f (Table.remove_offers removed offered)

theorem Sound.undefineAll (sound : w.Sound) (table : String) : w.Since (w.undefineAll table) :=
  (sound.withTable table fun f offered =>
    sound.tables table f (Compositor.releases_offers offered)).withCompositor table _

theorem Sound.freeze (sound : w.Sound) (table : String) : w.Since (w.freeze table) :=
  sound.withTable table (sound.tables table)

theorem Sound.write (sound : w.Sound) (table name : String) (v : Value) :
    w.Since (w.write table name v) := by
  unfold World.write
  split
  · exact sound.withStore _
  · exact sound.withStore _
  · exact sound.withStore _
  · exact sound.since

/-! ### Histories -/

/-- What may happen to a world. Evaluations change nothing but storage. -/
inductive Action where
  | addScalar (table name : String) (x : Float)
  | addVector (table name : String) (xs : Array Float)
  | addString (table name text : String)
  | addConstant (table name : String) (x : Float)
  | addConstants (table : String)
  | share (table name source old : String)
  | addNatives (table : String) (functions : List (String × Native))
  | remove (table name : String)
  | freeze (table : String)
  | write (table name : String) (v : Value)
  | define (table : String) (group : List Definition)
  | undefine (table name : String)
  | undefineAll (table : String)
  | recompose (table : String) (settings : Settings)
  | evaluate (store : Store)

/-- The world a change leaves, refused or not. -/
def leave {ε α : Type} (x : EStateM ε World α) (w : World) : World :=
  match x w with
  | .ok _ w | .error _ w => w

theorem leave_eq {ε α : Type} (x : EStateM ε World α) (w : World) :
    leave x w = lastState (x w) := by
  unfold leave
  cases x w <;> rfl

def after (w : World) : Action → World
  | .addScalar table name x => leave (World.addScalar table name x) w
  | .addVector table name xs => leave (World.addVector table name xs) w
  | .addString table name text => leave (World.addString table name text) w
  | .addConstant table name x => leave (World.addConstant table name x) w
  | .addConstants table => leave (World.addConstants table) w
  | .share table name source old => leave (World.share table name source old) w
  | .addNatives table functions => leave (World.addNatives table functions) w
  | .remove table name => leave (World.remove table name) w
  | .freeze table => w.freeze table
  | .write table name v => w.write table name v
  | .define table group => leave (World.define table group) w
  | .undefine table name => leave (World.undefine table name) w
  | .undefineAll table => w.undefineAll table
  | .recompose table settings => w.recompose table settings
  | .evaluate store => { w with store := store }

def run (w : World) (actions : List Action) : World := actions.foldl after w

theorem sound_empty : empty.Sound where
  tables name f offered := absurd offered (Table.not_offers_empty f)
  functions n f found := by simp [empty] at found

theorem Orderly.since {ε α : Type} {x : EStateM ε World α} (orderly : Orderly x) (sound : w.Sound) :
    w.Since (leave x w) := by
  rw [leave_eq]
  exact ends_lastState.mp (orderly w w sound.since)

theorem Sound.after (sound : w.Sound) (action : Action) : w.Since (w.after action) := by
  cases action with
  | addScalar table name x => exact (orderly_addScalar table name x).since sound
  | addVector table name xs => exact (orderly_addVector table name xs).since sound
  | addString table name text => exact (orderly_addString table name text).since sound
  | addConstant table name x => exact (orderly_insert table name (by simp)).since sound
  | addConstants table => exact (orderly_addConstants table).since sound
  | share table name source old => exact (orderly_share table name source old).since sound
  | addNatives table functions => exact (orderly_addNatives table functions).since sound
  | remove table name => exact (orderly_remove table name).since sound
  | freeze table => exact sound.freeze table
  | write table name v => exact sound.write table name v
  | define table group => exact (orderly_define table group).since sound
  | undefine table name => exact (orderly_undefine table name).since sound
  | undefineAll table => exact sound.undefineAll table
  | recompose table settings => exact sound.withCompositor table _
  | evaluate store => exact sound.withStore store

theorem Sound.run (sound : w.Sound) (actions : List Action) : w.Since (w.run actions) := by
  induction actions generalizing w with
  | nil => exact sound.since
  | cons action actions ih =>
      have first := sound.after action
      exact first.trans (ih first.sound)

/-- Something may happen to `w` that leads to `w'`. -/
def Follows (w' w : World) : Prop := ∃ actions, w' = w.run actions

def Reached (w : World) : Prop := w.Follows empty

theorem Reached.sound (reached : w.Reached) : w.Sound := by
  obtain ⟨actions, rfl⟩ := reached
  exact (sound_empty.run actions).sound

theorem Follows.since (later : w'.Follows w) (sound : w.Sound) : w.Since w' := by
  obtain ⟨actions, rfl⟩ := later
  exact sound.run actions

/-! ### What evaluation finds -/

/-- The world as evaluation finds it. -/
def host (w : World) (check : Option Check) (limit rounds : Nat) : Host where
  natives := w.natives
  body? n := w.bodies[n]?.join
  check := check
  limit := limit
  rounds := rounds

theorem body_function {check : Option Check} {limit rounds n : Nat} {p : Program}
    (found : (w.host check limit rounds).body? n = some p) :
    ∃ f : Composed, w.functions[n]? = some f ∧ f.program = p := by
  simp only [host, bodies, Array.getElem?_mapIdx] at found
  cases inside : w.functions[n]? with
  | none => simp [inside] at found
  | some f =>
      rw [inside] at found
      -- A function may be gone for evaluation, but is never another one.
      by_cases live : w.isLive n = true
      · exact ⟨f, rfl, by simpa [live] using found⟩
      · simp [live] at found

theorem Sound.body (sound : w.Sound) {check : Option Check} {limit rounds n : Nat} {p : Program}
    (found : (w.host check limit rounds).body? n = some p) :
    p.tree.declared.Nodup ∧ ∃ q : Program, p.Settles q ∧ q.Read ∧
      ∀ arity, w.Offers (.composed n arity) → q.BuiltFor w.Grants arity := by
  obtain ⟨f, inside, rfl⟩ := body_function found
  obtain ⟨⟨q, settles, read, built⟩, distinct⟩ := sound.functions n f inside
  refine ⟨distinct, q, settles, read, fun arity offered => ?_⟩
  obtain ⟨g, same, rfl⟩ := offered
  obtain rfl : f = g := Option.some.inj (inside.symm.trans same)
  exact built

end World

end MathScript
