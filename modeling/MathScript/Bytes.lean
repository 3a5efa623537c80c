/-!
Byte positions in texts. A text is a list of characters; a position counts the bytes of those
before it. A text can be cut only where a character starts or the text ends.
-/

namespace MathScript

def utf8Length (cs : List Char) : Nat := cs.foldl (fun n c => n + c.utf8Size) 0

/-- A text up to a byte position and from there on; none if it cannot be cut there. -/
def cutAt? : List Char → Nat → Option (List Char × List Char)
  | cs, 0 => some ([], cs)
  | [], _ + 1 => none
  | c :: cs, n + 1 =>
      if n + 1 < c.utf8Size then none
      else (cutAt? cs (n + 1 - c.utf8Size)).map fun (front, rest) => (c :: front, rest)

end MathScript
