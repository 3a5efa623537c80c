import MathScript.Proofs.Nesting
import MathScript.Proofs.Renaming

/-!
Parses that are compared with each other: one parse and others of a text that has the same tokens,
up to their positions, to the names of locals and to the limits of the parse. `Twins` relates a
parser to what it is on the other sides. It has one case for each move a parser can make, so what
is shown of every move holds of whatever a parser is put together from. Some moves are made behind
a bracket or behind a word that leads to a list of statements or to a declaration; a parser that
has not come to such a token yet is told apart from one that may have.
-/

namespace MathScript

/-- What holds names of locals. -/
class Renamable (α : Type) where
  rename : Naming → α → α
  rename_none (a : α) : rename (fun _ => none) a = a

namespace Renamable

instance : Renamable Unit := ⟨fun _ => id, fun _ => rfl⟩

instance : Renamable Bool := ⟨fun _ => id, fun _ => rfl⟩

instance : Renamable Nat := ⟨fun _ => id, fun _ => rfl⟩

instance : Renamable Fill := ⟨fun _ => id, fun _ => rfl⟩

instance : Renamable Shape := ⟨fun _ => id, fun _ => rfl⟩

instance : Renamable Tree := ⟨Tree.rename, Tree.rename_none⟩

instance : Renamable (Target Tree) := ⟨Tree.renameTarget, Tree.renameTarget_none⟩

instance : Renamable Typed :=
  ⟨Typed.rename, fun node => by rw [Typed.rename, Tree.rename_none]⟩

variable {α β : Type} [Renamable α] [Renamable β]

theorem rename_none_eq : (rename fun _ => none : α → α) = id := funext rename_none

instance : Renamable (Option α) :=
  ⟨fun naming => Option.map (rename naming), fun a => by rw [rename_none_eq, Option.map_id]; rfl⟩

instance : Renamable (List α) :=
  ⟨fun naming => List.map (rename naming), fun a => by rw [rename_none_eq, List.map_id]⟩

instance : Renamable (α × β) :=
  ⟨fun naming => Prod.map (rename naming) (rename naming), fun a => by
    rw [rename_none_eq, rename_none_eq, Prod.map_id]; rfl⟩

instance : Renamable Parse.Cases :=
  ⟨Parse.Cases.rename, fun c => by
    have trees : Tree.rename (fun _ => none) = id := funext Tree.rename_none
    obtain ⟨cases, default, kind⟩ := c
    simp only [Parse.Cases.rename, trees, Prod.map_id, List.map_id, Option.map_id, id]⟩

@[simp] theorem rename_unit (naming : Naming) (a : Unit) : rename naming a = a := rfl

@[simp] theorem rename_bool (naming : Naming) (a : Bool) : rename naming a = a := rfl

@[simp] theorem rename_nat (naming : Naming) (a : Nat) : rename naming a = a := rfl

@[simp] theorem rename_fill (naming : Naming) (a : Fill) : rename naming a = a := rfl

@[simp] theorem rename_shape (naming : Naming) (a : Shape) : rename naming a = a := rfl

@[simp] theorem rename_tree (naming : Naming) : (rename naming : Tree → Tree) = Tree.rename naming :=
  rfl

@[simp] theorem rename_target (naming : Naming) (t : Target Tree) :
    rename naming t = Tree.renameTarget naming t := rfl

@[simp] theorem rename_typed (naming : Naming) (t : Tree) (kind : Kind) :
    rename naming (⟨t, kind⟩ : Typed) = ⟨t.rename naming, kind⟩ := rfl

@[simp] theorem kind_rename (naming : Naming) (node : Typed) :
    (rename naming node).kind = node.kind := rfl

@[simp] theorem tree_rename (naming : Naming) (node : Typed) :
    (rename naming node).tree = node.tree.rename naming := rfl

@[simp] theorem rename_option (naming : Naming) (a : Option α) :
    rename naming a = a.map (rename naming) := rfl

@[simp] theorem rename_list (naming : Naming) (as : List α) :
    rename naming as = as.map (rename naming) := rfl

@[simp] theorem rename_pair (naming : Naming) (a : α) (b : β) :
    rename naming (a, b) = (rename naming a, rename naming b) := rfl

@[simp] theorem rename_length (naming : Naming) (length : Option Nat) :
    rename naming length = length := by
  cases length <;> rfl

end Renamable

open Renamable

namespace Parse

/-! ### Moves -/

/-- Looks at the token ahead and takes it if `found?` makes something of it. What follows is told
where it stood; `other` comes if the token stays. -/
def taking {α γ : Type} (source : Source) (found? : Token → Option γ) (taken : Nat → γ → Parse α)
    (other : Parse α) : Parse α := fun s =>
  match (s.look source 1).ahead with
  | (here, t) :: ahead =>
      match found? t with
      | some found => taken here found ((s.look source 1).behind t ahead)
      | none => other (s.look source 1)
  | [] => other (s.look source 1)

/-- Behind such a token stands a part that has an end of its own, or a declaration. -/
def leads : Token → Bool
  | .sym .lparen | .sym .lbracket | .sym .lbrace => true
  | .word name => name = "var" || name = "const" || name = "repeat"
  | _ => false

/-- What an operand does with a word that is no name. -/
def steers (name : String) : Bool :=
  ["not", "true", "false", "null", "if", "switch", "for", "while", "repeat", "break", "continue",
    "return", "var", "const"].contains name

/-- How an operand goes on behind its first token. -/
def headed (source : Source) (inner : Parse Typed) (here : Nat) : Token → Parse Typed
  | .sym (.op .minus) => do
      let node ← chain source inner unaryPrecedence
      if node.kind = .string then fail source here .negatedString
      else return ⟨.apply .negate [node.tree], node.kind⟩
  | .sym (.op .plus) => do
      let node ← chain source inner unaryPrecedence
      if node.kind = .string then fail source here .plusString else return node
  | .sym .bang | .word "not" => do
      let node ← chain source inner unaryPrecedence
      let tree ← requireScalar source node here "operand of 'not'"
      return scalarNode (.apply .not [tree])
  | .number x => return scalarNode (.number x)
  | .text s => return ⟨.text s, .string⟩
  | .word name => word source (expression source inner) name here
  | .sym .lparen => do
      let node ← expression source inner
      expect source .rparen "to close '('"
      return node
  | .sym .lbrace => brace source (expression source inner) here
  | .sym s => fail source here (.unexpected (some (.sym s)))

/-- What a name is that no local has: a symbol or a built-in function. -/
def global (source : Source) (expression : Parse Typed) (name : String) (position : Nat) :
    Parse Typed :=
  match source.table.find? name with
  | some s => symbolNode source expression name s position
  | none =>
      if isBuiltin name then do
        match ← arguments? source expression with
        | some args => builtin source name args position
        | none => fail source position (.missingCall name)
      else fail source position (.undefined name)

/-- A parser that does not know the local of a slot at a place, if it is told a place and a slot. It
fails if it starts there with a name that the local has. -/
def blind {α : Type} (source : Source) : Option (Nat × Nat) → Parse α → Parse α
  | none, x => x
  | some (place, slot), x => fun s =>
      match (s.look source 1).ahead with
      | (here, .word name) :: _ =>
          if here = place ∧ steers name = false ∧
              (findLocal name s.scopes).map Local.slot = some slot then
            fail source here (.undefined name) (s.look source 1)
          else x s
      | _ => x s

/-- A parser that does not know a local either fails at its name or does what it does anyway. -/
theorem blind_cases {α : Type} (source : Source) (unknown : Option (Nat × Nat)) (x : Parse α)
    (s : State) : blind source unknown x s = x s ∨ ∃ place slot name ahead,
      unknown = some (place, slot) ∧ (s.look source 1).ahead = (place, .word name) :: ahead ∧
      steers name = false ∧ (findLocal name s.scopes).map Local.slot = some slot ∧
      blind source unknown x s = .error (Diagnostic.locate source.text place (.undefined name))
        (s.look source 1) := by
  cases unknown with
  | none => exact .inl rfl
  | some local' =>
      obtain ⟨place, slot⟩ := local'
      unfold blind
      dsimp only
      split
      next here name ahead next =>
          by_cases same : here = place ∧ steers name = false ∧
            (findLocal name s.scopes).map Local.slot = some slot
          · rw [if_pos same]
            obtain ⟨rfl, names, found⟩ := same
            exact .inr ⟨here, slot, name, ahead, rfl, next, names, found, rfl⟩
          · exact .inl (if_neg same)
      · exact .inl rfl

/-- Operands that do not know a local at a place. -/
def blindOperand (source : Source) (unknown : Option (Nat × Nat)) : Nat → Parse Typed
  | 0 => tooDeep source
  | levels + 1 => blind source unknown (prefixed source (blindOperand source unknown levels))

/-- A whole text read without knowing a local at a place. -/
def blindProgram (source : Source) (unknown : Option (Nat × Nat)) : Parse (List Typed) :=
  statements source (expression source (blindOperand source unknown source.limits.nesting)) .input
    source.allowance []

/-! ### Sides -/

/-- What a parse is given and what the others are given, which it is compared with: new names of
locals, a local that is not known at a place, which positions stand for which. A side may be lax:
its limits of nesting and of vectors may be higher. If the first side is patient, its lists may be
cut off earlier than those of the others. -/
structure Sides (ι : Type) where
  source : Source
  others : ι → Source
  naming : ι → Naming
  unknown : ι → Option (Nat × Nat)
  near : ι → Nat → Nat → Prop
  lax : ι → Prop
  patient : Prop
  rounds : Nat
  table : ∀ i, (others i).table = source.table
  nesting : ∀ i, source.limits.nesting ≤ (others i).limits.nesting
  vectorSize : ∀ i, source.limits.vectorSize ≤ (others i).limits.vectorSize
  strict : ∀ i, ¬ lax i → (others i).limits.nesting = source.limits.nesting ∧
    (others i).limits.vectorSize = source.limits.vectorSize
  allowance : ∀ i, (others i).allowance = rounds
  allowed : source.allowance = rounds ∨ patient ∧ source.allowance ≤ rounds
  origin : ∀ i, near i 0 0
  toward : ∀ here, ∃ there : ι → Nat, ∀ i, near i here (there i)
  back : ∀ i place, ∃ here, ∃ there : ι → Nat, (∀ j, near j here (there j)) ∧ there i = place

variable {ι : Type}

namespace Sides

/-- A position and those that stand for it on the other sides. -/
def Near (c : Sides ι) (here : Nat) (there : ι → Nat) : Prop := ∀ i, c.near i here (there i)

/-- How many rounds there are on the first side and on the others. -/
def Fuels (c : Sides ι) (fuel further : Nat) : Prop :=
  fuel = further ∨ c.patient ∧ fuel ≤ further

/-- A side with no new names. -/
def Plain (c : Sides ι) (i : ι) : Prop := c.naming i = fun _ => none

/-- Some sides have positions that stand for one of the first; there are such for the others. -/
theorem extendAll {c : Sides ι} {here : Nat} (place : ι → Nat) (alive : ι → Prop)
    (near : ∀ i, alive i → c.near i here (place i)) :
    ∃ there, c.Near here there ∧ ∀ i, alive i → there i = place i := by
  classical
  obtain ⟨there, nears⟩ := c.toward here
  refine ⟨fun j => if alive j then place j else there j, fun j => ?_, fun i live => if_pos live⟩
  dsimp only
  split
  next live => exact near j live
  · exact nears j

end Sides

/-- A parser and what it is on the other sides. The first argument tells whether it may stand behind
a token that leads further in. -/
inductive Twins (c : Sides ι) : Bool → {α : Type} → [Renamable α] → Parse α → (ι → Parse α) → Prop
  | done {b : Bool} {α : Type} [Renamable α] (a : α) :
      Twins c b (pure a) fun i => pure (rename (c.naming i) a)
  | bind {b : Bool} {α β : Type} [Renamable α] [Renamable β] {x : Parse β} {y : ι → Parse β}
      {f : β → Parse α} {g : ι → β → Parse α} (first : Twins c b x y)
      (rest : ∀ a, Twins c b (f a) fun i => g i (rename (c.naming i) a)) :
      Twins c b (x >>= f) fun i => y i >>= g i
  | inside {α : Type} [Renamable α] {x : Parse α} {y : ι → Parse α} (flat : Twins c false x y) :
      Twins c true x y
  /-- The first side has no rounds left where another would go on. -/
  | stalled {b : Bool} {α : Type} [Renamable α] {x : Parse α} {y : ι → Parse α}
      (patient : c.patient) (longer : Twins c b x y) : Twins c b (stalled c.source) y
  /-- The first side has no levels of nesting left. -/
  | tooDeep {b : Bool} {y : ι → Parse Typed} (strict : ∀ i, ¬ c.lax i → y i = tooDeep (c.others i)) :
      Twins c b (tooDeep c.source) y
  | fail {b : Bool} {α : Type} [Renamable α] {here : Nat} {there : ι → Nat} {cause : Cause}
      {causes : ι → Cause} (near : c.Near here there) (same : ∀ i, c.Plain i → causes i = cause) :
      Twins c b (fail c.source here cause : Parse α) fun i => fail (c.others i) (there i) (causes i)
  /-- A failure that names the token ahead. -/
  | refuse {b : Bool} {α : Type} [Renamable α] {here : Nat} {there : ι → Nat}
      {cause : Option Token → Cause} (near : c.Near here there)
      (one : ∀ t t', (cause t).category = (cause t').category) :
      Twins c b (do Parse.fail c.source here (cause (← peek c.source)) : Parse α)
        fun i => do Parse.fail (c.others i) (there i) (cause (← peek (c.others i)))
  | position {b : Bool} {α : Type} [Renamable α] {f : Nat → Parse α} {g : ι → Nat → Parse α}
      (rest : ∀ here there, c.Near here there → Twins c b (f here) fun i => g i (there i)) :
      Twins c b (Parse.position c.source >>= f) fun i => Parse.position (c.others i) >>= g i
  /-- What is seen of the token ahead is not which name it is, nor, further out, whether it is a `;`
  or the end of the text. -/
  | glance {b : Bool} {α γ : Type} [Renamable α] (seen : Option Token → γ) {f : γ → Parse α}
      {g : ι → γ → Parse α}
      (names : ∀ name name', isReserved name = false → isReserved name' = false →
        seen (some (.word name)) = seen (some (.word name')))
      (last : b = false → seen none = seen (some (.sym .semicolon)))
      (rest : ∀ r, Twins c b (f r) fun i => g i r) :
      Twins c b (peek c.source >>= fun t => f (seen t)) fun i =>
        peek (c.others i) >>= fun t => g i (seen t)
  /-- A name is not taken like this, nor `var`, nor, further out, a `;`. -/
  | take {b : Bool} {α γ : Type} [Renamable α] (found? : Token → Option γ) {f : Nat → γ → Parse α}
      {g : ι → Nat → γ → Parse α} {x : Parse α} {y : ι → Parse α}
      (names : ∀ name, isReserved name = false ∨ name = "var" → found? (.word name) = none)
      (last : b = false → found? (.sym .semicolon) = none)
      (yes : ∀ t r, found? t = some r → ∀ here there, c.Near here there →
        Twins c (b || leads t) (f here r) fun i => g i (there i) r)
      (no : Twins c b x y) :
      Twins c b (taking c.source found? f x) fun i => taking (c.others i) found? (g i) (y i)
  /-- An operand takes its first token, which may be a name. -/
  | operand {b : Bool} {inner : Parse Typed} {inners : ι → Parse Typed}
      (plain : ∀ t, (∀ name, t = .word name → steers name = true) → ∀ here there,
        c.Near here there → Twins c (b || leads t) (headed c.source inner here t) fun i =>
          headed (c.others i) (inners i) (there i) t)
      (locals : ∀ (binding : Binding) here there, c.Near here there →
        Twins c b (access c.source (expression c.source inner) binding here) fun i =>
          access (c.others i) (expression (c.others i) (inners i))
            (binding.rename (c.naming i)) (there i))
      (globals : ∀ name, steers name = false → ∀ here there, c.Near here there →
        Twins c b (global c.source (expression c.source inner) name here) fun i =>
          global (c.others i) (expression (c.others i) (inners i)) name (there i)) :
      Twins c b (prefixed c.source inner) fun i =>
        blind (c.others i) (c.unknown i) (prefixed (c.others i) (inners i))
  | requireLoop {b : Bool} {here : Nat} {there : ι → Nat} (near : c.Near here there)
      (keyword : String) :
      Twins c b (requireLoop c.source here keyword) fun i =>
        Parse.requireLoop (c.others i) (there i) keyword
  | vectorLength {here : Nat} {there : ι → Nat} (near : c.Near here there) (size : Tree) :
      Twins c true (vectorLength c.source size here) fun i =>
        Parse.vectorLength (c.others i) (size.rename (c.naming i)) (there i)
  | otherwise {e : Parse Typed} {es : ι → Parse Typed} (reads : Twins c true e es) :
      Twins c true (otherwise? c.source e) fun i => otherwise? (c.others i) (es i)
  | vectorAhead : Twins c true (vectorAhead c.source) fun i => Parse.vectorAhead (c.others i)
  | inScope {α : Type} [Renamable α] {x : Parse α} {y : ι → Parse α} (part : Twins c true x y) :
      Twins c true (inScope x) fun i => Parse.inScope (y i)
  | inLoop {α : Type} [Renamable α] {x : Parse α} {y : ι → Parse α} (part : Twins c true x y) :
      Twins c true (inLoop x) fun i => Parse.inLoop (y i)
  /-- A declaration, if `var` is ahead. Its name may be another one on the other sides. -/
  | declaring {b : Bool} {α : Type} [Renamable α] {e : Parse Typed} {es : ι → Parse Typed}
      {constant : Bool} {f : Typed → Parse α} {g : ι → Typed → Parse α} {x : Parse α}
      {y : ι → Parse α}
      (values : ∀ name (names : ι → String), (∀ i, c.Plain i → names i = name) → ∀ here there,
        c.Near here there → Twins c true (initialValue c.source e name constant here) fun i =>
          initialValue (c.others i) (es i) (names i) constant (there i))
      (yes : ∀ node, Twins c true (f node) fun i => g i (rename (c.naming i) node))
      (no : Twins c b x y) :
      Twins c b (do if ← checkWord c.source "var" then declaration c.source e constant >>= f else x)
        fun i => do
          if ← checkWord (c.others i) "var" then declaration (c.others i) (es i) constant >>= g i
          else y i
  | statements {e : Parse Typed} {es : ι → Parse Typed} {fuel further : Nat}
      (reads : Twins c false (statement c.source e) fun i => statement (c.others i) (es i))
      (rounds : c.Fuels fuel further) (stop : Stop) (items : List Typed) :
      Twins c true (statements c.source e stop fuel items) fun i =>
        Parse.statements (c.others i) (es i) stop further (items.map (Typed.rename (c.naming i)))

/-! ### Moves in parsers -/

section

variable {α γ : Type} (source : Source)

/-- What looks at the token ahead and then either takes it or leaves it. -/
theorem peek_bind {k : Option Token → Parse α} (found? : Token → Option γ) (taken : γ → Parse α)
    (other : Parse α) (nothing : k none = other)
    (something : ∀ t, k (some t) = match found? t with
      | some found => advance source >>= fun _ => taken found
      | none => other) :
    peek source >>= k = taking source found? (fun _ => taken) other := by
  funext s
  rw [taking, bind_completed (peek_eq source s)]
  cases ahead : (s.look source 1).ahead with
  | nil => rw [List.head?_nil, Option.map_none, nothing]
  | cons next rest =>
      obtain ⟨here, t⟩ := next
      rw [List.head?_cons, Option.map_some, something t]
      dsimp only
      cases found? t with
      | none => rfl
      | some found =>
          dsimp only
          rw [bind_completed (advance_some source (s.look_look.symm ▸ ahead)), State.look_look]

/-- A token is asked for, and taken if it comes. -/
theorem eaten_bind (t : Token) (f : Bool → Parse α) :
    (do
        if (← peek source) == some t then
          let _ ← advance source
          return true
        else return false : Parse Bool) >>= f =
      taking source (fun next => if next = t then some () else none) (fun _ _ => f true)
        (f false) := by
  rw [bind_assoc]
  refine peek_bind source (fun next => if next = t then some () else none) (fun _ => f true)
    (f false) rfl fun next => ?_
  by_cases same : next = t
  · subst same
    simp
  · simp [same]

theorem eat_bind (sym : Sym) (f : Bool → Parse α) : eat source sym >>= f =
    taking source (fun next => if next = .sym sym then some () else none) (fun _ _ => f true)
      (f false) :=
  eaten_bind source (.sym sym) f

theorem eatWord_bind (word : String) (f : Bool → Parse α) : eatWord source word >>= f =
    taking source (fun next => if next = .word word then some () else none) (fun _ _ => f true)
      (f false) :=
  eaten_bind source (.word word) f

/-- The operator that a token is, if it binds at least as tight as `least`. -/
def operator? (least : Nat) : Token → Option Op
  | .sym (.op op) => if least ≤ op.precedence then some op else none
  | _ => none

theorem climb_succ (operand : Parse Typed) (fuel least : Nat) (left : Typed) :
    climb source operand (fuel + 1) least left =
      taking source (operator? least) (fun here op => do
          let right ← binary source operand fuel op.rightPrecedence
          climb source operand fuel least (← combine source op left right here))
        (return left) := by
  funext s
  have found : operatorAhead source least s =
      .ok ((s.look source 1).ahead.head?.bind fun next => operator? least next.2)
        (s.look source 1) := by
    rw [operatorAhead_eq]
    rcases (s.look source 1).ahead with _ | ⟨⟨here, t⟩, rest⟩
    · rfl
    · rcases t with _ | _ | _ | sym
      case sym => cases sym <;> rfl
      all_goals rfl
  rw [climb, taking, bind_completed found]
  cases ahead : (s.look source 1).ahead with
  | nil => rfl
  | cons next rest =>
      obtain ⟨here, t⟩ := next
      simp only [List.head?_cons, Option.bind_some]
      cases operator? least t with
      | none => rfl
      | some op =>
          dsimp only
          rw [bind_completed (position_eq source _), State.look_look, State.front_ahead ahead,
            bind_completed (advance_some source (s.look_look.symm ▸ ahead)), State.look_look]

/-- An assignment with its operator, or a swap. -/
def assigns? : Token → Option (Option AssignOp)
  | .sym (.assign op) => some (some op)
  | .sym .swap => some none
  | _ => none

theorem expressions_succ (operand : Parse Typed) (fuel : Nat) :
    expressions source operand (fuel + 1) = (do
      let here ← position source
      let left ← ternary source operand (expressions source operand fuel)
      taking source assigns? (fun _ found => match found with
          | some op => do
              let value ← expressions source operand fuel
              assignment source left op value here
          | none => do
              let right ← ternary source operand (expressions source operand fuel)
              exchange source left right here)
        (return left)) := by
  rw [expressions]
  congr 1
  funext here
  congr 1
  funext left
  refine peek_bind source assigns? _ _ rfl fun t => ?_
  rcases t with _ | _ | _ | sym
  case sym => cases sym <;> rfl
  all_goals rfl

theorem access_scalar (expression : Parse Typed) {b : Binding} (scalar : b.kind = .scalar)
    (place : Nat) : access source expression b place = (do
      if !(← check source .lbracket) then return ⟨.load b, b.kind⟩
      else fail source place (.notIndexable b.name)) := by
  unfold access
  simp only [scalar, if_true]

/-- What stands in brackets behind a vector or a string. -/
def indexed (source : Source) (expression : Parse Typed) (b : Binding) (place : Nat) :
    Parse Typed := do
  if ← eat source .rbracket then return scalarNode (.size b)
  else
    let first ← bound? source expression .colon
    if ← eat source .colon then
      let last ← bound? source expression .rbracket
      expect source .rbracket "to close range"
      return ⟨.slice b first last, b.kind⟩
    else
      expect source .rbracket "to close index"
      match first with
      | some index => return ⟨.element b index, if b.kind = .vector then .scalar else b.kind⟩
      | none => fail source place .missingIndex

theorem access_indexed (expression : Parse Typed) {b : Binding} (other : b.kind ≠ .scalar)
    (place : Nat) : access source expression b place =
      taking source (fun next => if next = .sym .lbracket then some () else none)
        (fun _ _ => indexed source expression b place) (return ⟨.load b, b.kind⟩) := by
  unfold access
  simp only [other, if_false]
  unfold check
  rw [bind_assoc]
  refine peek_bind source (fun next => if next = .sym .lbracket then some () else none)
    (fun _ => indexed source expression b place) (return ⟨.load b, b.kind⟩) rfl fun next => ?_
  by_cases same : next = .sym .lbracket
  · subst same
    rfl
  · simp [same]

end

theorem requireLoop_eq (source : Source) (place : Nat) (keyword : String) (s : State) :
    requireLoop source place keyword s =
      if s.loopDepth = 0 then .error (Diagnostic.locate source.text place (.outsideLoop keyword)) s
      else .ok () s := by
  change (if s.loopDepth = 0 then fail source place (.outsideLoop keyword) else pure () : Parse Unit)
    s = _
  split <;> rfl

/-! ### Operands by their first token -/

section

variable (source : Source) (inner : Parse Typed) {s : State}

theorem primary_none (expression : Parse Typed) (none : (s.look source 1).ahead = []) :
    primary source expression (s.look source 1) =
      .error (Diagnostic.locate source.text (utf8Length source.text) (.unexpected .none))
        { s.look source 1 with afterBrace := false } := by
  have front : (s.look source 1).front source = utf8Length source.text := by
    rw [s.poised_look.front, none]
    rfl
  have other : check source .semicolon (s.look source 1) = .ok false (s.look source 1) := by
    rw [check_eq, State.look_look, none]
    rfl
  unfold primary
  rw [bind_completed (position_eq source _), State.look_look, front, bind_completed other,
    if_neg Bool.false_ne_true, bind_completed (advance_none source (s.look_look.symm ▸ none)),
    State.look_look]
  rfl

theorem primary_semicolon (expression : Parse Typed) {here : Nat} {ahead : List (Nat × Token)}
    (next : (s.look source 1).ahead = (here, .sym .semicolon) :: ahead) :
    primary source expression (s.look source 1) =
      .error (Diagnostic.locate source.text here (.unexpected (some (.sym .semicolon))))
        (s.look source 1) := by
  have there : check source .semicolon (s.look source 1) = .ok true (s.look source 1) := by
    rw [check_eq, State.look_look, next]
    rfl
  unfold primary
  rw [bind_completed (position_eq source _), State.look_look, State.front_ahead next,
    bind_completed there, if_pos rfl]
  rfl

theorem primary_some (expression : Parse Typed) {here : Nat} {t : Token}
    {ahead : List (Nat × Token)}
    (next : (s.look source 1).ahead = (here, t) :: ahead) (other : t ≠ .sym .semicolon) :
    primary source expression (s.look source 1) =
      (match t with
        | .number x => return scalarNode (.number x)
        | .text s => return ⟨.text s, .string⟩
        | .word name => word source expression name here
        | .sym .lparen => do
            let inner ← expression
            expect source .rparen "to close '('"
            return inner
        | .sym .lbrace => brace source expression here
        | .sym s => fail source here (.unexpected (some (.sym s))) : Parse Typed)
        ((s.look source 1).behind t ahead) := by
  have absent : check source .semicolon (s.look source 1) = .ok false (s.look source 1) := by
    rw [check_eq, State.look_look, next]
    simp [other]
  unfold primary
  rw [bind_completed (position_eq source _), State.look_look, State.front_ahead next,
    bind_completed absent, if_neg Bool.false_ne_true,
    bind_completed (advance_some source (s.look_look.symm ▸ next)), State.look_look]
  rcases t with _ | _ | _ | sym
  case sym => cases sym <;> rfl
  all_goals rfl

theorem headed_word (here : Nat) {name : String} (other : name ≠ "not") :
    headed source inner here (.word name) = word source (expression source inner) name here := by
  unfold headed
  split <;> simp_all

/-- An operand fails in front of nothing or a `;`; else it goes on behind its first token. -/
theorem prefixed_eq : prefixed source inner s =
    match (s.look source 1).ahead with
    | [] => .error (Diagnostic.locate source.text (utf8Length source.text) (.unexpected none))
        { s.look source 1 with afterBrace := false }
    | (here, t) :: ahead =>
        if t = .sym .semicolon then
          .error (Diagnostic.locate source.text here (.unexpected (some t))) (s.look source 1)
        else headed source inner here t ((s.look source 1).behind t ahead) := by
  unfold prefixed
  rw [bind_completed (position_eq source s), bind_completed (peek_eq source _), State.look_look]
  cases ahead : (s.look source 1).ahead with
  | nil => exact primary_none source _ ahead
  | cons next rest =>
      obtain ⟨here, t⟩ := next
      have advanced := advance_some source (s.look_look.symm ▸ ahead)
      rw [State.look_look] at advanced
      rw [State.front_ahead ahead]
      dsimp only [List.head?_cons, Option.map_some]
      by_cases semicolon : t = .sym .semicolon
      · subst semicolon
        exact primary_semicolon source _ ahead
      · rw [if_neg semicolon]
        rcases t with x | name | value | sym
        case number => exact primary_some source _ ahead semicolon
        case text => exact primary_some source _ ahead semicolon
        case word =>
            by_cases not : name = "not"
            · subst not
              exact bind_completed advanced
            · rw [headed_word source inner here not]
              simpa [not] using primary_some source (expression source inner) ahead semicolon
        case sym =>
            rcases sym with op | _ | _ | _ | _ | _ | _ | _ | _ | _ | _ | _ | _ | _
            case op =>
                cases op
                case minus => exact bind_completed advanced
                case plus => exact bind_completed advanced
                all_goals exact primary_some source _ ahead semicolon
            case bang => exact bind_completed advanced
            all_goals exact primary_some source _ ahead semicolon

/-- A name is a local, or what it is where no local has it. -/
theorem identifier_eq (expression : Parse Typed) (name : String) (place : Nat) : identifier source expression name place s =
      (match findLocal name s.scopes with
        | some l => access source expression ⟨name, .slot l.slot l.kind, l.writable⟩ place
        | none => global source expression name place : Parse Typed) s := rfl

theorem headed_name (here : Nat) {name : String} (names : steers name = false) :
    headed source inner here (.word name) = identifier source (expression source inner) name here := by
  simp only [steers, List.contains_eq_mem, List.mem_cons, List.not_mem_nil, or_false,
    decide_eq_false_iff_not, not_or] at names
  obtain ⟨not, true', false', null, if', switch, for', while', repeat', break', continue', return',
    var, const⟩ := names
  unfold headed
  split <;> simp_all [word]

end

end Parse

end MathScript
