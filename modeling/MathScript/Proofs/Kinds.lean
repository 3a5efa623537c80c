import MathScript.Tree

/-!
The static kind of a node, read off its tree, and what it promises: a node that completes
yields null or a value of its kind. A number, a name, a literal and every operation but two
keep that promise on their own; a negation and an element-wise function keep it where their
operand is not null.
-/

namespace MathScript

/-- The kind of an operation whose first operand is of the kind `first`. -/
def Operation.kind (op : Operation) (first : Kind) : Kind :=
  match op with
  | .negate | .unary _ => first
  | .vectors _ | .vector => .vector
  | .strings .plus => .string
  | _ => .scalar

namespace Tree

mutual

/-- Loops are scalar, and so is whatever yields nothing. -/
def kind : Tree → Kind
  | .text _ => .string
  | .load b => b.kind
  | .element b _ => if b.kind = .vector then .scalar else b.kind
  | .slice b _ _ => b.kind
  | .apply op args => op.kind (firstKind args)
  | .branch _ yes _ => yes.kind
  | .switch cases default => caseKind (optionKind default) cases
  | .sequence items => lastKind .scalar items
  | .assign target _ _ => target.kind
  | .swap left _ => left.kind
  | _ => .scalar

def firstKind : List Tree → Kind
  | [] => .scalar
  | t :: _ => t.kind

def optionKind : Option Tree → Kind
  | none => .scalar
  | some t => t.kind

def lastKind (last : Kind) : List Tree → Kind
  | [] => last
  | t :: ts => lastKind t.kind ts

def caseKind (otherwise : Kind) : List (Tree × Tree) → Kind
  | [] => otherwise
  | (_, body) :: _ => body.kind

end

theorem lastKind_append (last : Kind) (ts : List Tree) (t : Tree) :
    lastKind last (ts ++ [t]) = t.kind := by
  induction ts generalizing last with
  | nil => simp only [List.nil_append, lastKind]
  | cons u ts ih => simp only [List.cons_append, lastKind, ih]

end Tree

/-- A value a variable of this shape may hold; a vector has as many elements as were declared. -/
def Shape.Holds : Shape → Value → Prop
  | .scalar, .scalar _ | .string, .string _ => True
  | .vector length _, .vector xs => xs.size = length
  | _, _ => False

/-- Null, or of the kind. -/
def Value.Fits (v : Value) (kind : Kind) : Prop := v = .null ∨ v.kind? = some kind

namespace Operation

/-- What an operation needs of the trees it is applied to. -/
def Takes (op : Operation) (args : List Tree) : Prop :=
  match op with
  | .negate | .unary _ => ∃ a, args = [a] ∧ a.kind ≠ .string
  | .vectors _ | .strings _ => args.length = 2
  | _ => True

/-- A negation or an element-wise function that gets null where a vector is promised. -/
def Starves (op : Operation) (args : List Tree) (values : List Value) : Prop :=
  match op with
  | .negate | .unary _ => Tree.firstKind args = .vector ∧ values = [.null]
  | _ => False

theorem map_fits {f : Float → Float} {v : Value} {kind : Kind} (numeric : kind ≠ .string)
    (fed : ¬ (kind = .vector ∧ v = .null)) (fits : v.Fits kind) :
    (map f v).kind? = some kind := by
  -- Null counts as a number here, so it only does harm where a vector is promised.
  rcases fits with rfl | known
  · cases kind with
    | scalar => rfl
    | vector => exact absurd ⟨rfl, rfl⟩ fed
    | string => exact absurd rfl numeric
  · cases v <;> simp_all [map, Value.kind?]

/-- An operation that starves yields a number where a vector is promised. -/
theorem Starves.breaks {op : Operation} {args : List Tree} {values : List Value}
    (starves : op.Starves args values) :
    ¬ (op.result values).Fits (op.kind (Tree.firstKind args)) := by
  cases op <;> simp only [Starves] at starves
  case negate | unary =>
      obtain ⟨promised, rfl⟩ := starves
      simp [kind, promised, result, map, Value.Fits, Value.kind?]

theorem onStrings_kind (op : Op) (left right : String) :
    (onStrings op left right).kind? = some ((Operation.strings op).kind .string) := by
  cases op <;> rfl

/-- An operation keeps its promise unless it starves. -/
theorem result_kind {op : Operation} {args : List Tree} {values : List Value}
    (takes : op.Takes args) (aligned : values.length = args.length)
    (fits : ∀ v a, (v, a) ∈ values.zip args → v.Fits a.kind) (fed : ¬ op.Starves args values) :
    (op.result values).kind? = some (op.kind (Tree.firstKind args)) := by
  -- Negation and the functions of one operand; what they yield is of the operand's kind.
  have mapped : ∀ (f : Float → Float), (∃ a, args = [a] ∧ a.kind ≠ .string) →
      ¬ (Tree.firstKind args = .vector ∧ values = [.null]) →
      ∃ v, values = [v] ∧ (map f v).kind? = some (Tree.firstKind args) := by
    rintro f ⟨a, rfl, numeric⟩ fed
    obtain ⟨v, rfl⟩ := List.length_eq_one_iff.mp aligned
    refine ⟨v, rfl, map_fits numeric ?_ (fits v a (by simp))⟩
    rintro ⟨promised, rfl⟩
    exact fed ⟨promised, rfl⟩
  have pair : args.length = 2 → ∃ l r, values = [l, r] := by
    intro two
    match values, aligned.trans two with
    | [l, r], _ => exact ⟨l, r, rfl⟩
  cases op with
  | negate =>
      obtain ⟨v, rfl, known⟩ := mapped (fun x => -x) takes fed
      exact known
  | unary f =>
      obtain ⟨v, rfl, known⟩ := mapped f.apply takes fed
      exact known
  | vectors op =>
      obtain ⟨l, r, rfl⟩ := pair takes
      rfl
  | strings op =>
      obtain ⟨l, r, rfl⟩ := pair takes
      rw [show (Operation.strings op).result [l, r] = onStrings op l.asString r.asString from rfl,
        onStrings_kind]
      cases op <;> rfl
  | vector => rfl
  | not | scalars | binary | ternary | reduce | reduceVector =>
      unfold result
      split <;> first | rfl | contradiction

end Operation

end MathScript
