import MathScript.Lexeme

/-!
Reading a text one lexeme a call. Between the calls stand the byte position reached, a product sign
that is still to be given, and whether reading is over. What is left of the text is cut off at the
position whenever a step looks at it. A step fails where the text cannot be cut, and a loop where a
round of it does not get on.
-/

namespace MathScript

/-- The byte position where a mark stands first in a text. -/
def firstAt? (mark : List Char) : List Char → Option Nat
  | [] => if mark.isEmpty then some 0 else none
  | c :: cs =>
      if mark.isPrefixOf (c :: cs) then some 0 else (firstAt? mark cs).map (· + c.utf8Size)

/-- A step from a byte position: what it gives, and the position it goes on from. -/
abbrev Scan := StateT Nat Option

namespace Scan

variable (source : List Char)

/-! ### The text at the position -/

def rest : Scan (List Char) := do
  let (_, cs) ← cutAt? source (← get)
  return cs

/-- The text from `start` up to the position. -/
def slice (start : Nat) : Scan (List Char) := do
  let position ← get
  guard (start ≤ position)
  let (_, cs) ← cutAt? source start
  let (front, _) ← cutAt? cs (position - start)
  return front

def peek : Scan (Option Char) := do return (← rest source).head?

def peekNth (n : Nat) : Scan (Option Char) := do return (← rest source)[n]?

def move (bytes : Nat) : Scan Unit := modify (· + bytes)

def finish : Scan Unit := set (utf8Length source)

def bump : Scan (Option Char) := do
  match ← peek source with
  | some c =>
      move c.utf8Size
      return some c
  | none => return none

/-- Takes `second` if it comes next. -/
def follow (second : Char) : Scan Bool := do
  if (← peek source) = some second then
    let _ ← bump source
    return true
  else return false

/-! ### Loops -/

/-- Rounds, until one of them gives a result. Each has to go on in the text. -/
def loop {σ α : Type} (round : σ → Scan (σ ⊕ α)) (s : σ) (position : Nat) : Option (α × Nat) :=
  match round s position with
  | none => none
  | some (.inr a, next) => some (a, next)
  | some (.inl s, next) =>
      if position < next ∧ next ≤ utf8Length source then loop round s next else none
  termination_by utf8Length source - position

def bumpWhile (p : Char → Bool) : Scan Unit :=
  loop source (fun _ => do
    if (← peek source).any p then
      let _ ← bump source
      return .inl ()
    else return .inr ()) ()

def skipLine : Scan Unit := do
  match firstAt? ['\n'] (← rest source) with
  | some n => move (n + 1)
  | none => finish source

/-- Skips a blank or a comment. Skipping is over where neither stands, and at a comment that is not
closed, which is a fault. -/
def skipOne : Scan (Unit ⊕ Option Lexeme) := do
  match ← peek source with
  | none => return .inr none
  | some c =>
      if isBlank c then
        let _ ← bump source
        return .inl ()
      else if c = '#' then
        skipLine source
        return .inl ()
      else if c = '/' then
        match ← peekNth source 1 with
        | some '/' =>
            skipLine source
            return .inl ()
        | some '*' =>
            let start ← get
            let (_, body) ← cutAt? (← rest source) 2
            match firstAt? ['*', '/'] body with
            | some n =>
                move (2 + n + 2)
                return .inl ()
            | none =>
                finish source
                return .inr (some ⟨start, .error .unterminatedComment⟩)
        | _ => return .inr none
      else return .inr none

def skipTrivia : Scan (Option Lexeme) := loop source (fun _ => skipOne source) ()

/-! ### Tokens behind their first character -/

def isSign (c : Option Char) : Bool := c == some '+' || c == some '-'

/-- The character that has to be a digit behind the mark of an exponent, and behind its sign. -/
def firstFigure : Scan (Option Char) := do
  let sign ← peekNth source 1
  if isSign sign then peekNth source 2 else return sign

def skipSign : Scan Unit := do
  if isSign (← peek source) then
    let _ ← bump source

/-- An exponent, where digits follow its mark. -/
def exponent : Scan Unit := do
  let mark ← peek source
  if mark = some 'e' ∨ mark = some 'E' then
    if (← firstFigure source).any Char.isDigit then
      let _ ← bump source
      skipSign source
      bumpWhile source Char.isDigit

def fraction : Scan Unit := do
  if (← peek source) = some '.' then
    let _ ← bump source
    bumpWhile source Char.isDigit

def figures : Scan Unit := do
  bumpWhile source Char.isDigit
  fraction source
  exponent source

def number (start : Nat) : Scan Content := do
  figures source
  return Piece.numberContent (← slice source start)

def word (start : Nat) : Scan Content := do
  bumpWhile source Identifier.continues
  return Piece.wordContent (String.ofList (← slice source start))

/-- One character of a text in quotes, or its end. -/
def quoteOne (value : String) : Scan (String ⊕ Content) := do
  match ← bump source with
  | some '\'' => return .inr (.token (.text value))
  | some '\\' =>
      match ← bump source with
      | some 'n' => return .inl (value.push '\n')
      | some 't' => return .inl (value.push '\t')
      | some c => return .inl (value.push c)
      | none => return .inr (.fault .unterminatedString)
  | some c => return .inl (value.push c)
  | none => return .inr (.fault .unterminatedString)

def quoted : Scan Content := loop source (quoteOne source) ""

/-- One symbol or another, by whether `second` comes next. -/
def either (second : Char) (yes no : Sym) : Scan Content := do
  return .token (.sym (if ← follow source second then yes else no))

def symbol (c : Char) : Scan Content := do
  match c with
  | '+' => either source '=' (.assign .add) (.op .plus)
  | '-' => either source '=' (.assign .sub) (.op .minus)
  | '*' => either source '=' (.assign .mul) (.op .times)
  | '/' => either source '=' (.assign .div) (.op .divide)
  | '%' => either source '=' (.assign .mod) (.op .modulo)
  | '^' => return .token (.sym (.op .power))
  | ':' => either source '=' (.assign .set) .colon
  | '=' => either source '=' (.op .eq) (.op .eq)
  | '!' => either source '=' (.op .ne) .bang
  | '<' =>
      if ['=', '>'].isPrefixOf (← rest source) then
        move 2
        return .token (.sym .swap)
      else if ← follow source '=' then return .token (.sym (.op .le))
      else either source '>' (.op .ne) (.op .lt)
  | '>' => either source '=' (.op .ge) (.op .gt)
  | '&' => either source '&' (.op .and) (.op .and)
  | '|' => either source '|' (.op .or) (.op .or)
  | '(' => return .token (.sym .lparen)
  | ')' => return .token (.sym .rparen)
  | '[' => return .token (.sym .lbracket)
  | ']' => return .token (.sym .rbracket)
  | '\x7b' => return .token (.sym .lbrace)
  | '\x7d' => return .token (.sym .rbrace)
  | ',' => return .token (.sym .comma)
  | ';' => return .token (.sym .semicolon)
  | '?' => return .token (.sym .question)
  | _ => return .fault (.unexpectedChar c)

/-! ### Lexemes -/

/-- The product sign in front of a factor that comes next. -/
def product? (implicit : Bool) : Scan (Option Lexeme) := do
  if implicit && (← peek source).any fun c => Identifier.starts c || c == '(' then
    return some ⟨← get, .ok (.sym (.op .times))⟩
  else return none

/-- What starts at `start` with `c`, a product sign behind it, and whether nothing follows. -/
def token (implicit : Bool) (start : Nat) (c : Char) : Scan (Content × Option Lexeme × Bool) := do
  if c.isDigit || (c == '.' && (← peek source).any Char.isDigit) then
    match ← number source start with
    | .token t => return (.token t, ← product? source implicit, false)
    | content => return (content, none, false)
  else if Identifier.starts c then return (← word source start, none, false)
  else if c = '\'' then
    let content ← quoted source
    return (content, none, content = .fault .unterminatedString)
  else return (← symbol source c, none, false)

/-- The next lexeme of the text, a product sign behind it, and whether nothing follows. -/
def lexeme (implicit : Bool) : Scan (Option Lexeme × Option Lexeme × Bool) := do
  match ← skipTrivia source with
  | some fault => return (some fault, none, true)
  | none =>
      let start ← get
      match ← bump source with
      | none => return (none, none, true)
      | some c =>
          let (content, sign, done) ← token source implicit start c
          return ((Lexeme.ofContent start content).head?, sign, done)

end Scan

structure Reader where
  position : Nat
  pending : Option Lexeme
  done : Bool

namespace Reader

variable (source : List Char) (implicit : Bool)

def start : Reader := ⟨0, none, false⟩

/-- One call: what waits, or else what comes next in the text. -/
def next (r : Reader) : Option (Option Lexeme × Reader) :=
  match r.pending with
  | some l => some (some l, { r with pending := none })
  | none =>
      if r.done then some (none, r)
      else do
        let ((l, pending, done), position) ← Scan.lexeme source implicit r.position
        return (l, ⟨position, pending, done⟩)

/-- The reader after some calls. -/
def after : Nat → Option Reader
  | 0 => some start
  | n + 1 => do
      let (_, r) ← (← after n).next source implicit
      return r

end Reader

end MathScript
