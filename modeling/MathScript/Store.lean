import MathScript.Value

/-!
Host storage. A host variable is a cell of one kind; two names bound to one cell share its
contents. Native functions and access checks keep a natural number between their calls, their
memory, in storage as well.
-/

namespace MathScript

structure Cell (kind : Kind) where
  index : Nat
  deriving DecidableEq

structure Memory where
  index : Nat
  deriving DecidableEq

structure Store where
  scalars : Array Float
  vectors : Array (Array Float)
  strings : Array String
  memories : Array Nat
  deriving DecidableEq

namespace Store

def empty : Store := ⟨#[], #[], #[], #[]⟩

def scalar (s : Store) (c : Cell .scalar) : Float := s.scalars.getD c.index 0

def vector (s : Store) (c : Cell .vector) : Array Float := s.vectors.getD c.index #[]

def string (s : Store) (c : Cell .string) : String := s.strings.getD c.index ""

def memory (s : Store) (m : Memory) : Nat := s.memories.getD m.index 0

def setScalar (s : Store) (c : Cell .scalar) (x : Float) : Store :=
  { s with scalars := s.scalars.setIfInBounds c.index x }

def modifyVector (s : Store) (c : Cell .vector) (f : Array Float → Array Float) : Store :=
  { s with vectors := s.vectors.modify c.index f }

def modifyString (s : Store) (c : Cell .string) (f : String → String) : Store :=
  { s with strings := s.strings.modify c.index f }

def setMemory (s : Store) (m : Memory) (n : Nat) : Store :=
  { s with memories := s.memories.setIfInBounds m.index n }

def newScalar (s : Store) (x : Float) : Store × Cell .scalar :=
  ({ s with scalars := s.scalars.push x }, ⟨s.scalars.size⟩)

def newVector (s : Store) (xs : Array Float) : Store × Cell .vector :=
  ({ s with vectors := s.vectors.push xs }, ⟨s.vectors.size⟩)

def newString (s : Store) (text : String) : Store × Cell .string :=
  ({ s with strings := s.strings.push text }, ⟨s.strings.size⟩)

def newMemory (s : Store) : Store × Memory :=
  ({ s with memories := s.memories.push 0 }, ⟨s.memories.size⟩)

end Store

end MathScript
