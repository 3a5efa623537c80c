import MathScript.Blank
import MathScript.Diagnostic
import MathScript.Identifier

/-!
Reading program text. The text is first cut into pieces: blanks and comments, tokens, and
faulty stretches. Every piece takes at least one character and the pieces in order make up the
text. Lexemes are the tokens and faults of those pieces with their byte positions; between a
number and a name or parenthesis that follows without a gap, a product sign may be put in.
-/

namespace MathScript

inductive Content where
  | skip
  | token (t : Token)
  | fault (cause : Cause)
  deriving DecidableEq

structure Piece where
  text : List Char
  content : Content
  deriving DecidableEq

namespace Piece

/-- The length of a line comment behind its first character, line end included. -/
def lineLength (cs : List Char) : Nat :=
  let body := (cs.takeWhile (· ≠ '\n')).length
  if body < cs.length then body + 1 else body

/-- The length of a text up to and with the first `*/`. -/
def closing? : List Char → Option Nat
  | '*' :: '/' :: _ => some 2
  | _ :: cs => (closing? cs).map (· + 1)
  | [] => none

/-- The length of an exponent part: the mark counts only when digits follow. -/
def exponentLength : List Char → Nat
  | mark :: sign :: rest =>
      if mark = 'e' ∨ mark = 'E' then
        if sign = '+' ∨ sign = '-' then
          let digits := (rest.takeWhile Char.isDigit).length
          if digits = 0 then 0 else digits + 2
        else
          let digits := ((sign :: rest).takeWhile Char.isDigit).length
          if digits = 0 then 0 else digits + 1
      else 0
  | _ => 0

/-- The length of a number behind its first character, which is a digit or a point: digits,
a point with further digits, an exponent. -/
def numberLength (cs : List Char) : Nat :=
  let whole := (cs.takeWhile Char.isDigit).length
  let fraction := match cs.drop whole with
    | '.' :: rest => (rest.takeWhile Char.isDigit).length + 1
    | _ => 0
  whole + fraction + exponentLength (cs.drop (whole + fraction))

def numberContent (text : List Char) : Content :=
  match Decimal.read? text with
  | some x => .token (.number x)
  | none => .fault (.invalidNumber (String.ofList text))

/-- The characters of a string and the length of its text behind the opening quote. A
backslash takes the next character as it is, but for `n` and `t`. -/
def quoted? : List Char → Option (List Char × Nat)
  | [] => none
  | '\\' :: c :: cs =>
      let meant := if c = 'n' then '\n' else if c = 't' then '\t' else c
      (quoted? cs).map fun (value, n) => (meant :: value, n + 2)
  | ['\\'] => none
  | c :: cs =>
      if c = '\'' then some ([], 1)
      else (quoted? cs).map fun (value, n) => (c :: value, n + 1)

def wordContent (name : String) : Content :=
  match name with
  | "and" => .token (.sym (.op .and))
  | "or" => .token (.sym (.op .or))
  | "xor" => .token (.sym (.op .xor))
  | "nand" => .token (.sym (.op .nand))
  | "nor" => .token (.sym (.op .nor))
  | "xnor" => .token (.sym (.op .xnor))
  | "in" => .token (.sym (.op .member))
  | "like" => .token (.sym (.op .like))
  | "ilike" => .token (.sym (.op .ilike))
  | _ => .token (.word name)

/-- The longest symbol that starts with `c`, and its length behind `c`. -/
def symbol? (c : Char) (cs : List Char) : Option (Sym × Nat) :=
  match c, cs with
  | '+', '=' :: _ => some (.assign .add, 1)
  | '+', _ => some (.op .plus, 0)
  | '-', '=' :: _ => some (.assign .sub, 1)
  | '-', _ => some (.op .minus, 0)
  | '*', '=' :: _ => some (.assign .mul, 1)
  | '*', _ => some (.op .times, 0)
  | '/', '=' :: _ => some (.assign .div, 1)
  | '/', _ => some (.op .divide, 0)
  | '%', '=' :: _ => some (.assign .mod, 1)
  | '%', _ => some (.op .modulo, 0)
  | '^', _ => some (.op .power, 0)
  | ':', '=' :: _ => some (.assign .set, 1)
  | ':', _ => some (.colon, 0)
  | '=', '=' :: _ => some (.op .eq, 1)
  | '=', _ => some (.op .eq, 0)
  | '!', '=' :: _ => some (.op .ne, 1)
  | '!', _ => some (.bang, 0)
  | '<', '=' :: '>' :: _ => some (.swap, 2)
  | '<', '=' :: _ => some (.op .le, 1)
  | '<', '>' :: _ => some (.op .ne, 1)
  | '<', _ => some (.op .lt, 0)
  | '>', '=' :: _ => some (.op .ge, 1)
  | '>', _ => some (.op .gt, 0)
  | '&', '&' :: _ => some (.op .and, 1)
  | '&', _ => some (.op .and, 0)
  | '|', '|' :: _ => some (.op .or, 1)
  | '|', _ => some (.op .or, 0)
  | '(', _ => some (.lparen, 0)
  | ')', _ => some (.rparen, 0)
  | '[', _ => some (.lbracket, 0)
  | ']', _ => some (.rbracket, 0)
  | '\x7b', _ => some (.lbrace, 0)
  | '\x7d', _ => some (.rbrace, 0)
  | ',', _ => some (.comma, 0)
  | ';', _ => some (.semicolon, 0)
  | '?', _ => some (.question, 0)
  | _, _ => none

def startsWith (p : Char → Bool) (cs : List Char) : Bool := (cs.head?.map p).getD false

/-- The piece that starts with `c`: how many of the characters behind `c` belong to it, and
what it is. -/
def scan (c : Char) (cs : List Char) : Nat × Content :=
  if isBlank c then (0, .skip)
  else if c = '#' ∨ (c = '/' ∧ startsWith (· == '/') cs) then (lineLength cs, .skip)
  else if c = '/' ∧ startsWith (· == '*') cs then
    match closing? (cs.drop 1) with
    | some n => (n + 1, .skip)
    | none => (cs.length, .fault .unterminatedComment)
  else if c.isDigit || (c == '.' && startsWith Char.isDigit cs) then
    let n := numberLength cs
    (n, numberContent (c :: cs.take n))
  else if Identifier.starts c then
    let rest := cs.takeWhile Identifier.continues
    (rest.length, wordContent (String.ofList (c :: rest)))
  else if c = '\'' then
    match quoted? cs with
    | some (value, n) => (n, .token (.text (String.ofList value)))
    | none => (cs.length, .fault .unterminatedString)
  else
    match symbol? c cs with
    | some (sym, n) => (n, .token (.sym sym))
    | none => (0, .fault (.unexpectedChar c))

/-- Cuts a text into pieces. -/
def split : List Char → List Piece
  | [] => []
  | c :: cs =>
      let (n, content) := scan c cs
      ⟨c :: cs.take n, content⟩ :: split (cs.drop n)
  termination_by cs => cs.length
  decreasing_by
    rw [List.length_cons, List.length_drop]
    omega

def isNumber (p : Piece) : Bool :=
  match p.content with
  | .token t => t.isNumber
  | _ => false

/-- A name or a parenthesis directly behind a number is a factor. -/
def startsFactor : List Piece → Bool
  | p :: _ => startsWith (fun c => Identifier.starts c || c == '(') p.text
  | [] => false

end Piece

/-- A token or a fault with the byte position where it starts. -/
structure Lexeme where
  position : Nat
  content : Except Cause Token

namespace Lexeme

def ofContent (position : Nat) : Content → List Lexeme
  | .skip => []
  | .token t => [⟨position, .ok t⟩]
  | .fault cause => [⟨position, .error cause⟩]

/-- The product sign between a number and a factor that follows without a gap. -/
def product (position : Nat) (p : Piece) (rest : List Piece) : List Lexeme :=
  if p.isNumber && Piece.startsFactor rest then [⟨position, .ok (.sym (.op .times))⟩] else []

def ofPieces (implicit : Bool) (position : Nat) : List Piece → List Lexeme
  | [] => []
  | p :: rest =>
      let next := position + utf8Length p.text
      ofContent position p.content ++ (if implicit then product next p rest else []) ++
        ofPieces implicit next rest

/-- The lexemes of a text, with products put in where `implicit` holds. -/
def read (implicit : Bool) (source : List Char) : List Lexeme :=
  ofPieces implicit 0 (Piece.split source)

end Lexeme

end MathScript
