import MathScript.Builtin

/-!
Names. A name starts with an ASCII letter or an underscore and goes on with letters, digits,
underscores and dots. Keywords and the names of built-in functions are taken.
-/

namespace MathScript

namespace Identifier

def starts (c : Char) : Bool := c == '_' || c.isAlpha

def continues (c : Char) : Bool := c == '.' || c == '_' || c.isAlphanum

def valid : List Char → Bool
  | [] => false
  | c :: cs => starts c && cs.all continues

end Identifier

def isIdentifier (name : String) : Bool := Identifier.valid name.toList

def keywords : List String :=
  ["and", "or", "not", "xor", "nand", "nor", "xnor", "in", "like", "ilike", "if", "else",
    "switch", "case", "default", "for", "while", "repeat", "until", "break", "continue",
    "return", "var", "const", "true", "false", "null"]

/-- Names that can be given neither to a symbol nor to a local. -/
def isReserved (name : String) : Bool := keywords.contains name || isBuiltin name

end MathScript
