import MathScript.Compile
import MathScript.Proofs.Registry
import MathScript.Proofs.Spelling

/-!
Formulas: number literals and scalar variables under the operators that numbers have, with
parentheses kept as a node of their own. A formula stands for a tree, in which parentheses leave
nothing, and is written as a row of tokens, in which nothing but parentheses tells what belongs
together. A formula is proper where no operator in it can be mistaken for that of another part, and
every formula can be made proper by parentheses around the parts that need them.
-/

namespace MathScript

/-! ### Operators on numbers -/

/-- The operators that two numbers may be combined with. -/
abbrev NumberOp := { op : Op // op ≠ .member ∧ op ≠ .like ∧ op ≠ .ilike }

namespace Op

/-- The least precedence an operand to the left of `op` may have without parentheses. -/
def leftPrecedence (op : Op) : Nat :=
  if op.isLeftAssociative then op.precedence else op.precedence + 1

/-- The node of an operator between two numbers. -/
def node (op : Op) (left right : Tree) : Tree :=
  match op with
  | .and => .logic .and left right
  | .or => .logic .or left right
  | _ => .apply (.scalars op) [left, right]

theorem precedence_pos (op : Op) : 1 ≤ op.precedence := by
  cases op <;> decide

theorem precedence_le (op : Op) : op.precedence ≤ 8 := by
  cases op <;> decide

/-- The precedence of the unary operators belongs to no other. -/
theorem precedence_ne (op : Op) : op.precedence ≠ Parse.unaryPrecedence := by
  cases op <;> decide

theorem precedence_le_left (op : Op) : op.precedence ≤ op.leftPrecedence := by
  cases op <;> decide

theorem precedence_le_right (op : Op) : op.precedence ≤ op.rightPrecedence := by
  cases op <;> decide

theorem leftPrecedence_le (op : Op) : op.leftPrecedence ≤ 9 := by
  cases op <;> decide

theorem rightPrecedence_le (op : Op) : op.rightPrecedence ≤ 9 := by
  cases op <;> decide

theorem rightPrecedence_eq (op : Op) :
    op.rightPrecedence = op.precedence + 1 ∨ op.rightPrecedence = 8 := by
  cases op <;> decide

/-- Only the power asks for more than itself to the left. -/
theorem precedence_lt {op : Op} (left : op.leftPrecedence ≤ 8) : op.precedence < 8 := by
  revert left
  cases op <;> decide

end Op

namespace Parse

theorem combined?_scalars (op : NumberOp) (left right : Tree) :
    combined? op (scalarNode left) (scalarNode right) =
      some (scalarNode (op.1.node left right)) := by
  obtain ⟨op, defined⟩ := op
  cases op
  case member => exact absurd rfl defined.1
  case like => exact absurd rfl defined.2.1
  case ilike => exact absurd rfl defined.2.2
  all_goals rfl

end Parse

/-! ### Variables -/

/-- What the name of a number stands for in a text with these parameters, if it is one. -/
def Table.scalar? (t : Table) (params : List String) (name : String) : Option Binding :=
  match (Compile.parameterScope 0 params).lookup name with
  | some l => some ⟨name, .slot l.slot l.kind, l.writable⟩
  | none =>
      match t.find? name with
      | some (.scalar c) => some ⟨name, .scalar c, !t.immutable⟩
      | some (.constant x) => some ⟨name, .constant x, false⟩
      | _ => none

/-! ### Formulas -/

/-- A number as it is written, with what it is read as. -/
structure Literal where
  text : List Char
  value : Float
  numeral : Numeral text
  reads : Decimal.read? text = some value

/-- A variable is given by what it is bound to, `not` by whether its sign is written for it. -/
inductive Formula where
  | number (literal : Literal)
  | load (b : Binding)
  | group (inner : Formula)
  | negate (part : Formula)
  | not (sign : Bool) (part : Formula)
  | binary (op : NumberOp) (left right : Formula)
  | conditional (test yes no : Formula)

namespace Formula

def tree : Formula → Tree
  | .number l => .number l.value
  | .load b => .load b
  | .group inner => inner.tree
  | .negate part => .apply .negate [part.tree]
  | .not _ part => .apply .not [part.tree]
  | .binary op left right => op.1.node left.tree right.tree
  | .conditional test yes no => .branch test.tree yes.tree (some no.tree)

def bindings : Formula → List Binding
  | .number _ => []
  | .load b => [b]
  | .group part | .negate part | .not _ part => part.bindings
  | .binary _ left right => left.bindings ++ right.bindings
  | .conditional test yes no => test.bindings ++ yes.bindings ++ no.bindings

/-- Every variable is what its name stands for. -/
structure Known (f : Formula) (table : Table) (params : List String) : Prop where
  named : ∀ b ∈ f.bindings, Nameable b.name
  bound : ∀ b ∈ f.bindings, table.scalar? params b.name = some b

theorem Known.mono {f g : Formula} {table : Table} {params : List String}
    (known : g.Known table params) (fewer : f.bindings ⊆ g.bindings) : f.Known table params :=
  ⟨fun b inside => known.named b (fewer inside), fun b inside => known.bound b (fewer inside)⟩

/-- The levels of operands inside of one another, a formula without any being one itself. -/
def depth : Formula → Nat
  | .number _ | .load _ => 1
  | .group part | .negate part | .not _ part => part.depth + 1
  | .binary _ left right => max left.depth right.depth
  | .conditional test yes no => max test.depth (max yes.depth no.depth)

theorem depth_pos (f : Formula) : 1 ≤ f.depth := by
  induction f with
  | number l => exact Nat.le_refl 1
  | load b => exact Nat.le_refl 1
  | group inner ih => exact Nat.le_add_left 1 _
  | negate part ih => exact Nat.le_add_left 1 _
  | not sign part ih => exact Nat.le_add_left 1 _
  | binary op left right ihl ihr => exact Nat.le_trans ihl (Nat.le_max_left ..)
  | conditional test yes no iht ihy ihn => exact Nat.le_trans iht (Nat.le_max_left ..)

/-! ### Writing -/

def symbolItem (s : Sym) : List Char × Token := (s.text.toList, .sym s)

def notItem (sign : Bool) : List Char × Token :=
  if sign then symbolItem .bang else ("not".toList, .word "not")

/-- The tokens of a formula with the text of each. -/
def items : Formula → List (List Char × Token)
  | .number l => [(l.text, .number l.value)]
  | .load b => [(b.name.toList, .word b.name)]
  | .group inner => symbolItem .lparen :: (inner.items ++ [symbolItem .rparen])
  | .negate part => symbolItem (.op .minus) :: part.items
  | .not sign part => notItem sign :: part.items
  | .binary op left right => left.items ++ symbolItem (.op op) :: right.items
  | .conditional test yes no =>
      test.items ++ symbolItem .question :: (yes.items ++ symbolItem .colon :: no.items)

def tokens (f : Formula) : List Token := f.items.map Prod.snd

/-- The text of a formula, with one blank between tokens. -/
def text (f : Formula) : String := String.ofList ([' '].intercalate (f.items.map Prod.fst))

def notToken (sign : Bool) : Token := if sign then .sym .bang else .word "not"

section

variable (sign : Bool) (op : NumberOp) (f test left right : Formula)

@[simp] theorem tokens_number (l : Literal) : tokens (.number l) = [.number l.value] := rfl

@[simp] theorem tokens_load (b : Binding) : tokens (.load b) = [.word b.name] := rfl

@[simp] theorem tokens_group :
    tokens (.group f) = .sym .lparen :: (f.tokens ++ [.sym .rparen]) := by
  simp [tokens, items, symbolItem]

@[simp] theorem tokens_negate : tokens (.negate f) = .sym (.op .minus) :: f.tokens := rfl

@[simp] theorem tokens_not : tokens (.not sign f) = notToken sign :: f.tokens := by
  cases sign <;> rfl

@[simp] theorem tokens_binary :
    tokens (.binary op left right) = left.tokens ++ .sym (.op op) :: right.tokens := by
  simp [tokens, items, symbolItem]

@[simp] theorem tokens_conditional :
    tokens (.conditional test left right) =
      test.tokens ++ .sym .question :: (left.tokens ++ .sym .colon :: right.tokens) := by
  simp [tokens, items, symbolItem]

end

theorem tokens_ne_nil (f : Formula) : f.tokens ≠ [] := by
  cases f <;> simp

theorem spelled_items {f : Formula} (named : ∀ b ∈ f.bindings, Nameable b.name) :
    ∀ e ∈ f.items, Spells e.1 e.2 := by
  induction f with
  | number l =>
      intro e inside
      obtain rfl := List.mem_singleton.mp inside
      exact .number l.numeral l.reads
  | load b =>
      intro e inside
      obtain rfl := List.mem_singleton.mp inside
      have nameable := named b List.mem_cons_self
      refine .word nameable.identifier fun op same => ?_
      -- An operator is either a keyword or no identifier.
      have spelled := nameable.spelled
      rw [same] at spelled
      cases op <;> revert spelled <;> decide
  | group inner ih =>
      intro e inside
      simp only [items, List.mem_cons, List.mem_append, List.not_mem_nil, or_false] at inside
      rcases inside with rfl | inside | rfl
      · exact .sym _
      · exact ih named e inside
      · exact .sym _
  | negate part ih =>
      intro e inside
      rcases List.mem_cons.mp inside with rfl | inside
      · exact .sym _
      · exact ih named e inside
  | not sign part ih =>
      intro e inside
      rcases List.mem_cons.mp inside with rfl | inside
      · cases sign
        · exact .word (by decide) fun op => by cases op <;> decide
        · exact .sym _
      · exact ih named e inside
  | binary op left right ihl ihr =>
      intro e inside
      simp only [items, List.mem_append, List.mem_cons] at inside
      simp only [bindings, List.mem_append] at named
      rcases inside with inside | rfl | inside
      · exact ihl (fun b within => named b (.inl within)) e inside
      · exact .sym _
      · exact ihr (fun b within => named b (.inr within)) e inside
  | conditional test yes no iht ihy ihn =>
      intro e inside
      simp only [items, List.mem_append, List.mem_cons] at inside
      simp only [bindings, List.mem_append] at named
      rcases inside with inside | rfl | inside | rfl | inside
      · exact iht (fun b within => named b (.inl (.inl within))) e inside
      · exact .sym _
      · exact ihy (fun b within => named b (.inl (.inr within))) e inside
      · exact .sym _
      · exact ihn (fun b within => named b (.inr within)) e inside

theorem contents_placed (position : Nat) (items : List (List Char × Token)) :
    (Lexeme.placed position items).map Lexeme.content = items.map fun e => .ok e.2 := by
  induction items generalizing position with
  | nil => rfl
  | cons e items ih =>
      rw [Lexeme.placed, List.map_cons, List.map_cons, ih]

/-- The text of a formula is read as its tokens. -/
theorem contents_text {f : Formula} (named : ∀ b ∈ f.bindings, Nameable b.name)
    (implicit : Bool) :
    (Lexeme.read implicit f.text.toList).map Lexeme.content = f.tokens.map .ok := by
  rw [text, String.toList_ofList, Lexeme.read, ofPieces_placed implicit 0 (spelled_items named),
    contents_placed, tokens, List.map_map]
  rfl

/-! ### Parentheses -/

/-- How tight a formula holds together. A unary operator may stand to the right of the power, so
it holds as tight as that. -/
def level : Formula → Nat
  | .number _ | .load _ | .group _ => 9
  | .negate _ | .not _ _ => 8
  | .binary op _ _ => op.1.precedence
  | .conditional _ _ _ => 0

/-- An operator behind a formula takes its last operand away from it if it is at least this
tight. -/
def tail : Formula → Nat
  | .number _ | .load _ | .group _ => 9
  | .negate _ | .not _ _ => 8
  | .binary op _ _ => op.1.rightPrecedence
  | .conditional _ _ _ => 0

/-- No part stands without parentheses where its operator binds looser than the one beside it. -/
def Proper : Formula → Prop
  | .number _ | .load _ => True
  | .group inner => inner.Proper
  | .negate part | .not _ part => Parse.unaryPrecedence ≤ part.level ∧ part.Proper
  | .binary op left right =>
      (op.1.leftPrecedence ≤ left.level ∧ left.Proper) ∧
        op.1.rightPrecedence ≤ right.level ∧ right.Proper
  | .conditional test yes no => (1 ≤ test.level ∧ test.Proper) ∧ yes.Proper ∧ no.Proper

/-- Parentheses around what is looser than `least`. -/
def enclosed (least : Nat) (f : Formula) : Formula := if least ≤ f.level then f else .group f

/-- The formula with the parentheses that it needs, and those it has. -/
def grouped : Formula → Formula
  | .number l => .number l
  | .load b => .load b
  | .group inner => .group inner.grouped
  | .negate part => .negate (part.grouped.enclosed Parse.unaryPrecedence)
  | .not sign part => .not sign (part.grouped.enclosed Parse.unaryPrecedence)
  | .binary op left right =>
      .binary op (left.grouped.enclosed op.1.leftPrecedence)
        (right.grouped.enclosed op.1.rightPrecedence)
  | .conditional test yes no => .conditional (test.grouped.enclosed 1) yes.grouped no.grouped

theorem level_le_tail (f : Formula) : f.level ≤ f.tail := by
  cases f with
  | binary op _ _ => exact op.1.precedence_le_right
  | _ => exact Nat.le_refl _

/-- What may stand to the left of an operator keeps its last operand. -/
theorem lt_tail {op : Op} {f : Formula} (tight : op.leftPrecedence ≤ f.level) :
    op.precedence < f.tail := by
  cases f with
  | number l => exact Nat.lt_succ_of_le op.precedence_le
  | load b => exact Nat.lt_succ_of_le op.precedence_le
  | group inner => exact Nat.lt_succ_of_le op.precedence_le
  | negate part => exact Op.precedence_lt tight
  | not sign part => exact Op.precedence_lt tight
  | binary inner left right =>
      have below : op.precedence < 8 :=
        Op.precedence_lt (Nat.le_trans tight inner.1.precedence_le)
      have within : op.precedence ≤ inner.1.precedence :=
        Nat.le_trans op.precedence_le_left tight
      change op.precedence < inner.1.rightPrecedence
      rcases inner.1.rightPrecedence_eq with next | last
      · omega
      · omega
  | conditional test yes no =>
      have pos := op.precedence_pos
      have within : op.precedence ≤ 0 :=
        Nat.le_trans op.precedence_le_left tight
      omega

section

variable {least : Nat} {f : Formula}

theorem level_enclosed (bound : least ≤ 9) : least ≤ (f.enclosed least).level := by
  unfold enclosed
  split
  · assumption
  · exact bound

theorem proper_enclosed (proper : f.Proper) : (f.enclosed least).Proper := by
  unfold enclosed
  split
  · exact proper
  · exact proper

@[simp] theorem tree_enclosed : (f.enclosed least).tree = f.tree := by
  unfold enclosed
  split <;> rfl

@[simp] theorem bindings_enclosed : (f.enclosed least).bindings = f.bindings := by
  unfold enclosed
  split <;> rfl

end

theorem tree_grouped (f : Formula) : f.grouped.tree = f.tree := by
  induction f <;> simp_all [grouped, tree]

theorem bindings_grouped (f : Formula) : f.grouped.bindings = f.bindings := by
  induction f <;> simp_all [grouped, bindings]

theorem proper_grouped (f : Formula) : f.grouped.Proper := by
  induction f with
  | number l => trivial
  | load b => trivial
  | group inner ih => exact ih
  | negate part ih => exact ⟨level_enclosed (by decide), proper_enclosed ih⟩
  | not sign part ih => exact ⟨level_enclosed (by decide), proper_enclosed ih⟩
  | binary op left right ihl ihr =>
      exact ⟨⟨level_enclosed op.1.leftPrecedence_le, proper_enclosed ihl⟩,
        level_enclosed op.1.rightPrecedence_le, proper_enclosed ihr⟩
  | conditional test yes no iht ihy ihn =>
      exact ⟨⟨level_enclosed (by decide), proper_enclosed iht⟩, ihy, ihn⟩

/-- A proper formula needs no more parentheses. -/
theorem grouped_eq_self {f : Formula} (proper : f.Proper) : f.grouped = f := by
  have kept : ∀ {part : Formula} {least : Nat}, least ≤ part.level → part.enclosed least = part :=
    fun tight => if_pos tight
  induction f with
  | number l => rfl
  | load b => rfl
  | group inner ih => rw [grouped, ih proper]
  | negate part ih => rw [grouped, ih proper.2, kept proper.1]
  | not sign part ih => rw [grouped, ih proper.2, kept proper.1]
  | binary op left right ihl ihr =>
      obtain ⟨⟨wide, properLeft⟩, narrow, properRight⟩ := proper
      rw [grouped, ihl properLeft, ihr properRight, kept wide, kept narrow]
  | conditional test yes no iht ihy ihn =>
      obtain ⟨⟨tight, properTest⟩, properYes, properNo⟩ := proper
      rw [grouped, iht properTest, ihy properYes, ihn properNo, kept tight]

end Formula

end MathScript
