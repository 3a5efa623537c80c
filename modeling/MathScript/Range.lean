import MathScript.Binary64

/-!
Ranges of elements and characters given by numbers. Both bounds are inclusive and are clamped
to what is there.
-/

namespace MathScript.Range

/-- The half-open range of indices between two inclusive bounds, within `length`. -/
def clamp (length : Nat) (first last : Float) : Nat × Nat :=
  let start := Index.hold length first
  let stop := if last.isNaN || last < 0 then 0 else Index.hold length (last + 1)
  (start, max stop start)

def slice (xs : Array Float) (first last : Float) : Array Float :=
  let (start, stop) := clamp xs.size first last
  xs.extract start stop

def substring (s : String) (first last : Float) : String :=
  let cs := s.toList
  let (start, stop) := clamp cs.length first last
  String.ofList ((cs.drop start).take (stop - start))

/-- The characters with those of `new` over the ones from `start` to `stop`; where `new` is
too short the old ones stay. -/
def overwrite (cs : List Char) (start stop : Nat) (new : List Char) : List Char :=
  let room := (cs.drop start).take (stop - start)
  cs.take start ++ (new.take room.length ++ room.drop new.length) ++ cs.drop (start + room.length)

def overwriteText (s : String) (first last : Float) (new : String) : String :=
  let cs := s.toList
  let (start, stop) := clamp cs.length first last
  String.ofList (overwrite cs start stop new.toList)

/-- The vector with the elements of `new` over its first ones. -/
def refill (old new : Array Float) : Array Float := new.extract 0 old.size ++ old.extract new.size

end MathScript.Range
