import MathScript.Builtin
import MathScript.Operator
import MathScript.Store
import MathScript.Wildcard

/-!
Compiled programs. Every name is resolved: variables to their cell or frame slot, calls to
their function. Constructs that evaluate all their operands and then compute are one
constructor, `apply`, with the operation as data; the rest steer evaluation.
-/

namespace MathScript

/-- Where a name's value lives: a host cell, the tree itself, or a slot of the frame. -/
inductive Place where
  | scalar (cell : Cell .scalar)
  | constant (x : Float)
  | vector (cell : Cell .vector)
  | string (cell : Cell .string)
  | slot (index : Nat) (kind : Kind)
  deriving DecidableEq

namespace Place

def kind : Place → Kind
  | .scalar _ | .constant _ => .scalar
  | .vector _ => .vector
  | .string _ => .string
  | .slot _ kind => kind

def isHost : Place → Bool
  | .scalar _ | .vector _ | .string _ => true
  | .constant _ | .slot .. => false

end Place

structure Binding where
  name : String
  place : Place
  writable : Bool
  deriving DecidableEq

def Binding.kind (b : Binding) : Kind := b.place.kind

/-- What an assignment or a swap writes, with its indices given as `α`. -/
inductive Target (α : Type) where
  | whole (binding : Binding)
  | element (vector : Binding) (index : α)
  | range (string : Binding) (first last : Option α)
  deriving DecidableEq

namespace Target

variable {α : Type}

def binding : Target α → Binding
  | .whole b => b
  | .element b _ => b
  | .range b .. => b

/-- The kind of the value written. -/
def kind : Target α → Kind
  | .whole b => b.kind
  | .element .. => .scalar
  | .range .. => .string

def indices : Target α → List α
  | .whole _ => []
  | .element _ i => [i]
  | .range _ first last => first.toList ++ last.toList

end Target

/-- Operations that need the values of all their operands. -/
inductive Operation where
  | negate
  | not
  | scalars (op : Op)
  | vectors (op : Op)
  | strings (op : Op)
  | unary (f : Unary)
  | binary (f : Binary)
  | ternary (f : Ternary)
  | reduce (r : Reduction)
  | reduceVector (r : Reduction)
  | vector
  deriving DecidableEq

namespace Operation

/-- Element by element; a number goes with every element, and of two vectors the longer is
cut. Two numbers make a vector of one element. -/
def elementwise (op : Op) : Value → Value → Array Float
  | .vector xs, .vector ys => xs.zipWith op.apply ys
  | .vector xs, right => xs.map fun x => op.apply x right.asScalar
  | left, .vector ys => ys.map fun y => op.apply left.asScalar y
  | left, right => #[op.apply left.asScalar right.asScalar]

def contains (text part : List Char) : Bool :=
  match text with
  | [] => part.isEmpty
  | c :: cs => part.isPrefixOf (c :: cs) || contains cs part

/-- Comparisons go by code points. -/
def onStrings (op : Op) (left right : String) : Value :=
  match op with
  | .plus => .string (left ++ right)
  | .eq => .scalar (ofBool (left == right))
  | .ne => .scalar (ofBool (left != right))
  | .lt => .scalar (ofBool (left < right))
  | .le => .scalar (ofBool !(right < left))
  | .gt => .scalar (ofBool (right < left))
  | .ge => .scalar (ofBool !(left < right))
  | .member => .scalar (ofBool (contains right.toList left.toList))
  | .like => .scalar (ofBool (Wildcard.like left right false))
  | .ilike => .scalar (ofBool (Wildcard.like left right true))
  | _ => .scalar notNumber

def map (f : Float → Float) : Value → Value
  | .vector xs => .vector (xs.map f)
  | other => .scalar (f other.asScalar)

/-- The value of an operation on the values of its operands. -/
def result : Operation → List Value → Value
  | .negate, [v] => map (fun x => -x) v
  | .not, [v] => .scalar (ofBool !v.isTrue)
  | .scalars op, [l, r] => .scalar (op.apply l.asScalar r.asScalar)
  | .vectors op, [l, r] => .vector (elementwise op l r)
  | .strings op, [l, r] => onStrings op l.asString r.asString
  | .unary f, [v] => map f.apply v
  | .binary f, [a, b] => .scalar (f.apply a.asScalar b.asScalar)
  | .ternary f, [a, b, c] => .scalar (f.apply a.asScalar b.asScalar c.asScalar)
  | .reduce r, vs => .scalar (r.apply (vs.map Value.asScalar))
  | .reduceVector r, [v] => .scalar (r.apply v.asVector.toList)
  | .vector, vs => .vector (vs.map Value.asScalar).toArray
  | _, _ => .scalar notNumber

/-- Whether the operation yields a number for numbers, and so may be folded. -/
def isNumeric : Operation → Bool
  | .negate | .not | .scalars _ | .unary _ | .binary _ | .ternary _ | .reduce _ => true
  | .vectors _ | .strings _ | .reduceVector _ | .vector => false

end Operation

/-- How the elements of a declared vector are given. -/
inductive Fill where
  | zero
  | literal
  | each
  | copy
  deriving DecidableEq

/-- What a declaration declares; the trees of its initial value are kept beside it. -/
inductive Shape where
  | scalar
  | string
  | vector (length : Nat) (fill : Fill)
  deriving DecidableEq

def Shape.kind : Shape → Kind
  | .scalar => .scalar
  | .string => .string
  | .vector .. => .vector

/-- The function a call was resolved to: a native function by its number, a function written
in the language by the number of its definition. -/
inductive Callee where
  | scalar (name : String) (native : Nat)
  | vararg (name : String) (native : Nat)
  | generic (name : String) (native : Nat) (overload : Nat) (writeback : List (Option Binding))
  | composed (name : String) (definition : Nat)
  deriving DecidableEq

def Callee.name : Callee → String
  | .scalar name _ | .vararg name _ | .generic name .. | .composed name _ => name

def Callee.bindings : Callee → List Binding
  | .generic _ _ _ writeback => writeback.filterMap id
  | _ => []

inductive Tree where
  | null
  | number (x : Float)
  | text (s : String)
  | load (b : Binding)
  | element (b : Binding) (index : Tree)
  | slice (b : Binding) (first last : Option Tree)
  | size (b : Binding)
  | apply (op : Operation) (args : List Tree)
  | logic (op : Connective) (left right : Tree)
  | call (callee : Callee) (args : List Tree)
  | branch (test yes : Tree) (no : Option Tree)
  | switch (cases : List (Tree × Tree)) (default : Option Tree)
  | whileLoop (test body : Tree)
  | forLoop (first test step : Option Tree) (body : Tree)
  | repeatLoop (body stop : Tree)
  | breakLoop (payload : Option Tree)
  | continueLoop
  | returnList (items : List Tree)
  | sequence (items : List Tree)
  | declare (slot : Nat) (shape : Shape) (parts : List Tree)
  | assign (target : Target Tree) (op : AssignOp) (value : Tree)
  | swap (left right : Target Tree)

namespace Tree

/-- The number a node stands for without evaluation. -/
def number? : Tree → Option Float
  | .number x => some x
  | .load ⟨_, .constant x, _⟩ => some x
  | _ => none

/-- The nodes directly below a node, in evaluation order of the text. -/
def children : Tree → List Tree
  | .null | .number _ | .text _ | .load _ | .size _ | .continueLoop => []
  | .element _ index => [index]
  | .slice _ first last => first.toList ++ last.toList
  | .apply _ args => args
  | .logic _ left right => [left, right]
  | .call _ args => args
  | .branch test yes no => test :: yes :: no.toList
  | .switch cases default => cases.flatMap (fun (test, body) => [test, body]) ++ default.toList
  | .whileLoop test body => [test, body]
  | .forLoop first test step body => first.toList ++ test.toList ++ step.toList ++ [body]
  | .repeatLoop body stop => [body, stop]
  | .breakLoop payload => payload.toList
  | .returnList items => items
  | .sequence items => items
  | .declare _ _ parts => parts
  | .assign target _ value => target.indices ++ [value]
  | .swap left right => left.indices ++ right.indices

/-- The bindings a node itself reads or writes. -/
def bindings : Tree → List Binding
  | .load b | .element b _ | .slice b _ _ | .size b => [b]
  | .assign target _ _ => [target.binding]
  | .swap left right => [left.binding, right.binding]
  | .call callee _ => callee.bindings
  | _ => []

end Tree

/-- A tree with the number of slots its frame needs. -/
structure Program where
  tree : Tree
  frameSize : Nat

end MathScript
