import MathScript.Lexeme
import MathScript.Settings
import MathScript.Table
import MathScript.Tree

/-!
The state of a compilation and its access to tokens. Tokens are looked at no sooner than they
are needed, and a faulty stretch of text is recorded as a diagnostic when it is passed; so the
order of diagnostics follows the looking. Once as many diagnostics are kept as were asked for,
no token is left to look at.
-/

namespace MathScript

structure Local where
  slot : Nat
  kind : Kind
  writable : Bool
  deriving DecidableEq

abbrev Scope := List (String × Local)

namespace Parse

/-- What a compilation is given. `allowance` bounds the rounds of each list and chain. -/
structure Source where
  text : List Char
  table : Table
  limits : Limits
  allowance : Nat

/-- `ahead` are the tokens looked at and not taken, `rest` the lexemes not looked at. Scopes
come innermost first, diagnostics in the order they were recorded. -/
structure State where
  ahead : List (Nat × Token)
  rest : List Lexeme
  diagnostics : Array Diagnostic
  scopes : List Scope
  frameSize : Nat
  loopDepth : Nat
  afterBrace : Bool

end Parse

abbrev Parse := EStateM Diagnostic Parse.State

/-- A node with its kind. -/
structure Typed where
  tree : Tree
  kind : Kind

namespace Parse

namespace State

def full (s : State) (limit : Nat) : Bool := limit ≤ s.diagnostics.size

/-- Keeps a diagnostic below the limit; the one that reaches it ends the tokens. -/
def record (s : State) (limit : Nat) (d : Diagnostic) : State :=
  let s := if s.full limit then s else { s with diagnostics := s.diagnostics.push d }
  if s.full limit then { s with ahead := [], rest := [] } else s

/-- The state with faults at the head of `rest` recorded and the token behind them ahead. -/
def pull (source : Source) (s : State) : List Lexeme → State
  | [] => { s with rest := [] }
  | l :: rest =>
      match l.content with
      | .ok t => { s with ahead := s.ahead ++ [(l.position, t)], rest := rest }
      | .error cause =>
          let s := s.record source.limits.errors
            (Diagnostic.locate source.text l.position cause)
          if s.full source.limits.errors then s else pull source s rest

/-- The state with at least `count` tokens ahead, unless the text has no more. -/
def look (source : Source) (s : State) : Nat → State
  | 0 => s
  | count + 1 =>
      let s := s.look source count
      if s.ahead.length ≤ count then s.pull source s.rest else s

end State

def stalled {α : Type} (source : Source) : Parse α :=
  throw (Diagnostic.locate source.text 0 .stalled)

def fail {α : Type} (source : Source) (position : Nat) (cause : Cause) : Parse α :=
  throw (Diagnostic.locate source.text position cause)

def record (source : Source) (d : Diagnostic) : Parse Unit :=
  modify fun s => s.record source.limits.errors d

/-- The token ahead with its position. -/
def next? (source : Source) : Parse (Option (Nat × Token)) := fun s =>
  let s := s.look source 1
  .ok s.ahead.head? s

def peek (source : Source) : Parse (Option Token) := do
  return (← next? source).map Prod.snd

def peekSecond (source : Source) : Parse (Option Token) := fun s =>
  let s := s.look source 2
  .ok ((s.ahead.drop 1).head?.map Prod.snd) s

/-- Where the token ahead starts; the end of the text if there is none. -/
def position (source : Source) : Parse Nat := do
  match ← next? source with
  | some (position, _) => return position
  | none => return utf8Length source.text

def advance (source : Source) : Parse (Option Token) := fun s =>
  let s := s.look source 1
  match s.ahead with
  | [] => .ok none { s with afterBrace := false }
  | (_, t) :: ahead => .ok (some t) { s with ahead := ahead, afterBrace := t == .sym .rbrace }

def check (source : Source) (sym : Sym) : Parse Bool := do
  return (← peek source) == some (.sym sym)

def checkWord (source : Source) (word : String) : Parse Bool := do
  return (← peek source) == some (.word word)

/-- Takes the token if it is `sym`. -/
def eat (source : Source) (sym : Sym) : Parse Bool := do
  if ← check source sym then
    let _ ← advance source
    return true
  else return false

def eatWord (source : Source) (word : String) : Parse Bool := do
  if ← checkWord source word then
    let _ ← advance source
    return true
  else return false

def expect (source : Source) (sym : Sym) (context : String) : Parse Unit := do
  if ← eat source sym then return ()
  else
    let here ← position source
    fail source here (.expected sym context (← peek source))

/-- Takes `sym` as long as it comes. -/
def eatAll (source : Source) (sym : Sym) : Nat → Parse Unit
  | 0 => stalled source
  | fuel + 1 => do if ← eat source sym then eatAll source sym fuel

/-- Items separated by commas, up to and with `close`. -/
def commaList {α : Type} (source : Source) (item : Parse α) (close : Sym) (context : String) :
    Nat → List α → Parse (List α)
  | 0, _ => stalled source
  | fuel + 1, items => do
      let items := (← item) :: items
      if ← eat source .comma then commaList source item close context fuel items
      else
        expect source close context
        return items.reverse

/-! ### Brackets -/

def opens : Token → Bool
  | .sym .lparen | .sym .lbracket | .sym .lbrace => true
  | _ => false

def closes : Token → Bool
  | .sym .rparen | .sym .rbracket | .sym .rbrace => true
  | _ => false

/-- The bracket depth behind a token. -/
def depthAfter (depth : Nat) (t : Token) : Nat :=
  if opens t then depth + 1 else if closes t then depth - 1 else depth

/-- Skips to the end of the current statement: behind a `;`, or in front of a closing brace or
`until`, outside of brackets. -/
def synchronize (source : Source) : Nat → Nat → Parse Unit
  | 0, _ => stalled source
  | fuel + 1, depth => do
      match ← peek source with
      | none => return ()
      | some t =>
          if depth = 0 ∧ t = .sym .semicolon then
            let _ ← advance source
          else if depth = 0 ∧ (t = .sym .rbrace ∨ t = .word "until") then return ()
          else
            let _ ← advance source
            synchronize source fuel (depthAfter depth t)

/-- A comma at this depth makes a vector, a `;` or a closing brace a block. -/
def verdict? (depth : Nat) (t : Token) : Option Bool :=
  if depth ≠ 0 then none
  else if t = .sym .comma then some true
  else if t = .sym .semicolon ∨ t = .sym .rbrace then some false
  else none

/-- The verdict among tokens, or the depth behind them. -/
def searchAhead (depth : Nat) : List (Nat × Token) → Except Bool Nat
  | [] => .ok depth
  | (_, t) :: ahead =>
      match verdict? depth t with
      | some b => .error b
      | none => searchAhead (depthAfter depth t) ahead

/-- The same among lexemes not looked at. What is passed is looked at; `seen` is that, newest
first. -/
def searchRest (source : Source) (s : State) (seen : List (Nat × Token)) (depth : Nat) :
    List Lexeme → Bool × State
  | [] => (false, { s with ahead := s.ahead ++ seen.reverse, rest := [] })
  | l :: rest =>
      match l.content with
      | .ok t =>
          let seen := (l.position, t) :: seen
          match verdict? depth t with
          | some b => (b, { s with ahead := s.ahead ++ seen.reverse, rest := rest })
          | none => searchRest source s seen (depthAfter depth t) rest
      | .error cause =>
          let s := s.record source.limits.errors
            (Diagnostic.locate source.text l.position cause)
          if s.full source.limits.errors then (false, s)
          else searchRest source s seen depth rest

/-- Whether the text behind an opening brace is a vector literal. -/
def vectorAhead (source : Source) : Parse Bool := do
  if ← checkWord source "var" then return false
  else if ← checkWord source "const" then return false
  else modifyGet fun s =>
    match searchAhead 0 s.ahead with
    | .error b => (b, s)
    | .ok depth => searchRest source s [] depth s.rest

/-! ### Scopes -/

def declareLocal (name : String) (kind : Kind) (writable : Bool) : Parse Nat :=
  modifyGet fun s =>
    let entry := (name, ⟨s.frameSize, kind, writable⟩)
    let scopes := match s.scopes with
      | [] => []
      | scope :: outer => (entry :: scope) :: outer
    (s.frameSize, { s with scopes := scopes, frameSize := s.frameSize + 1 })

/-- The innermost local of a name. -/
def findLocal (name : String) : List Scope → Option Local
  | [] => none
  | scope :: outer => (scope.lookup name).or (findLocal name outer)

def declaredHere (name : String) : Parse Bool := do
  match (← get).scopes with
  | [] => return false
  | scope :: _ => return (scope.lookup name).isSome

/-- Runs in a scope of its own, which is left however the part ends. -/
def inScope {α : Type} (part : Parse α) : Parse α := fun s =>
  match part { s with scopes := [] :: s.scopes } with
  | .ok a s => .ok a { s with scopes := s.scopes.drop 1 }
  | .error d s => .error d { s with scopes := s.scopes.drop 1 }

/-- Runs inside of one more loop. -/
def inLoop {α : Type} (part : Parse α) : Parse α := fun s =>
  match part { s with loopDepth := s.loopDepth + 1 } with
  | .ok a s => .ok a { s with loopDepth := s.loopDepth - 1 }
  | .error d s => .error d { s with loopDepth := s.loopDepth - 1 }

/-- A part with its diagnostic as a result. -/
def attempt {α : Type} (part : Parse α) : Parse (Except Diagnostic α) := fun s =>
  match part s with
  | .ok a s => .ok (.ok a) s
  | .error d s => .ok (.error d) s

end Parse

end MathScript
