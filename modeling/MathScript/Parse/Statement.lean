import MathScript.Parse.Expression

/-!
Statements, declarations and the words that steer evaluation, given how an expression inside
of them is parsed.
-/

namespace MathScript.Parse

variable (source : Source) (expression : Parse Typed)

def scalarExpression (what : String) : Parse Tree := do
  let here ← position source
  requireScalar source (← expression) here what

def scalarList (close : Sym) : Parse (List Tree) := do
  if ← eat source close then return []
  else
    commaList source (scalarExpression source expression "vector element") close
      "to close the list" source.allowance []

/-! ### Declarations -/

/-- The length of a declared vector: a literal, whole, at least one and within the limit. -/
def vectorLength (size : Tree) (position : Nat) : Parse Nat :=
  let limit := source.limits.vectorSize
  match size.fold.number? with
  | some x =>
      if x > limit.toFloat ∧ x.isFinite then fail source position (.vectorTooLarge x limit)
      else if x ≥ 1 ∧ isWhole x ∧ x.isFinite then
        return ((truncated? x).getD 0).toNat
      else fail source position .vectorSize
  | none => fail source position .vectorSize

/-- What stands between the brackets of a declaration; none if nothing does. -/
def declaredLength : Parse (Option Nat) := do
  if ← eat source .rbracket then return none
  else
    let here ← position source
    let size ← scalarExpression source expression "vector size"
    expect source .rbracket "after vector size"
    return some (← vectorLength source size here)

def checkCount (count : Nat) (name : String) (length : Option Nat) (position : Nat) :
    Parse Unit :=
  match length with
  | some n => if n < count then fail source position (.tooManyValues count name n) else return ()
  | none => return ()

/-- How the elements of a declared vector are given, with the trees that give them. -/
def vectorFill (name : String) (length : Option Nat) : Parse (Fill × List Tree) := do
  if ← eat source (.assign .set) then
    let here ← position source
    if ← eat source .lbrace then
      let items ← scalarList source expression .rbrace
      checkCount source items.length name length here
      return (.literal, items)
    else if ← eat source .lbracket then
      let item ← scalarExpression source expression "vector fill value"
      expect source .rbracket "after vector fill value"
      return (.each, [item])
    else
      let value ← expression
      if value.kind = .vector then return (.copy, [value.tree])
      else fail source here (.vectorFrom name value.kind)
  else return (.zero, [])

def vectorDeclaration (name : String) (position : Nat) : Parse (Shape × List Tree) := do
  let length ← declaredLength source expression
  let (fill, parts) ← vectorFill source expression name length
  match length, fill, parts with
  | some n, _, _ => return (.vector n fill, parts)
  | none, .literal, _ :: _ => return (.vector parts.length fill, parts)
  | none, _, _ => fail source position (.unknownSize name)

def initialValue (name : String) (constant : Bool) (position : Nat) :
    Parse (Shape × List Tree) := do
  if ← eat source .lbracket then vectorDeclaration source expression name position
  else if ← eat source (.assign .set) then
    let here ← Parse.position source
    let value ← expression
    match value.kind with
    | .scalar => return (.scalar, [value.tree])
    | .string => return (.string, [value.tree])
    | .vector => fail source here (.vectorWithoutSize name)
  else if constant then fail source position (.constWithoutValue name)
  else return (.scalar, [])

/-- A declaration with `var` ahead. The name is known only behind its initial value. -/
def declaration (constant : Bool) : Parse Typed := do
  let _ ← advance source
  let here ← position source
  match ← advance source with
  | some (.word name) =>
      if !isIdentifier name || isReserved name then fail source here (.unusableName name)
      else if ← declaredHere name then fail source here (.redeclared name)
      else
        let (shape, parts) ← initialValue source expression name constant here
        let slot ← declareLocal name shape.kind !constant
        return scalarNode (.declare slot shape parts)
  | _ => fail source here .missingVariableName

/-! ### Statement lists -/

def statement : Parse Typed := do
  if ← checkWord source "var" then declaration source expression false
  else if ← eatWord source "const" then
    if ← checkWord source "var" then declaration source expression true
    else fail source (← position source) .constWithoutVar
  else expression

/-- Where a list of statements stops. -/
inductive Stop where
  | input
  | brace
  | until
  deriving DecidableEq

def atStop (stop : Stop) : Parse Bool := do
  match ← peek source with
  | none => return true
  | some t =>
      match stop with
      | .input => return false
      | .brace => return t == .sym .rbrace
      | .until => return t == .word "until"

/-- A statement ends with a closing brace, with a `;`, or with its list. -/
def separated (stop : Stop) : Parse Bool := do
  if (← get).afterBrace then return true
  else if ← eat source .semicolon then return true
  else atStop source stop

/-- Records a diagnostic and goes on behind the faulty statement. -/
def recover (d : Diagnostic) : Parse Unit := do
  record source d
  synchronize source source.allowance 0

/-- Statements up to the stop, which is left. Faulty ones leave a diagnostic and no node. -/
def statements (stop : Stop) : Nat → List Typed → Parse (List Typed)
  | 0, items => do
      record source (Diagnostic.locate source.text 0 .stalled)
      return items.reverse
  | fuel + 1, items => do
      eatAll source .semicolon source.allowance
      if ← atStop source stop then return items.reverse
      else
        match ← attempt (statement source expression) with
        | .error d =>
            recover source d
            statements stop fuel items
        | .ok item =>
            if ← separated source stop then statements stop fuel (item :: items)
            else
              let here ← position source
              recover source
                (Diagnostic.locate source.text here (.missingSeparator (← peek source)))
              statements stop fuel (item :: items)

def block (stop : Stop) : Parse (List Typed) :=
  inScope (statements source expression stop source.allowance [])

/-! ### Control -/

/-- Behind an opening brace: nothing, a vector literal, or a block. -/
def brace (position : Nat) : Parse Typed := do
  if ← eat source .rbrace then return scalarNode .null
  else if ← vectorAhead source then
    let items ← scalarList source expression .rbrace
    return ⟨.apply .vector items, .vector⟩
  else
    let items ← block source expression .brace
    if ← eat source .rbrace then return sequence items
    else fail source position .unclosedBrace

/-- The branch behind `else`, which may have a `;` before it. -/
def otherwise? : Parse (Option Typed) := do
  if ← eatWord source "else" then return some (← expression)
  else if ← check source .semicolon then
    if (← peekSecond source) == some (.word "else") then
      let _ ← advance source
      let _ ← advance source
      return some (← expression)
    else return none
  else return none

def ifExpression (position : Nat) : Parse Typed := do
  expect source .lparen "after 'if'"
  let here ← Parse.position source
  let condition ← expression
  let test ← requireScalar source condition here "condition"
  if ← eat source .comma then
    let yes ← expression
    expect source .comma "in if(condition, then, else)"
    let no ← expression
    expect source .rparen "to close if(...)"
    conditional source test yes (some no) position
  else
    expect source .rparen "after condition"
    let yes ← expression
    let no ← otherwise? source expression
    conditional source test yes no position

/-- The cases read so far, newest first, the default, and the kind they all yield. -/
structure Cases where
  cases : List (Tree × Tree)
  default : Option Tree
  kind : Option Kind

def Cases.tree (c : Cases) : Typed := ⟨.switch c.cases.reverse c.default, c.kind.getD .scalar⟩

def Cases.add (c : Cases) (test : Option Tree) (body : Typed) : Cases :=
  match test with
  | some t => { c with cases := (t, body.tree) :: c.cases, kind := some body.kind }
  | none => { c with default := some body.tree, kind := some body.kind }

def addCase (c : Cases) (test : Option Tree) (body : Typed) (position : Nat) : Parse Cases :=
  match c.kind with
  | some first =>
      if first = body.kind then return c.add test body
      else fail source position (.unequalCases first body.kind)
  | none => return c.add test body

def switchCases : Nat → Cases → Parse Typed
  | 0, _ => stalled source
  | fuel + 1, c => do
      eatAll source .semicolon source.allowance
      let here ← position source
      if ← eatWord source "case" then
        let condition ← expression
        let test ← requireScalar source condition here "case condition"
        expect source .colon "after case condition"
        let body ← expression
        switchCases fuel (← addCase source c (some test) body here)
      else if ← eatWord source "default" then
        if c.default.isSome then fail source here .duplicateDefault
        else
          expect source .colon "after 'default'"
          let body ← expression
          switchCases fuel (← addCase source c none body here)
      else if ← eat source .rbrace then return c.tree
      else fail source here (.missingCase (← peek source))

def switch : Parse Typed := do
  expect source .lbrace "after 'switch'"
  switchCases source expression source.allowance ⟨[], none, none⟩

def requireLoop (position : Nat) (keyword : String) : Parse Unit := do
  if (← get).loopDepth = 0 then fail source position (.outsideLoop keyword)

def loopBody : Parse Tree := do return (← inLoop expression).tree

def loopStart : Parse (Option Tree) := do
  if ← check source .semicolon then return none
  else if ← checkWord source "var" then
    return some (← declaration source expression false).tree
  else return some (← expression).tree

def loopTest : Parse (Option Tree) := do
  if ← check source .semicolon then return none
  else return some (← scalarExpression source expression "loop condition")

def loopStep : Parse (Option Tree) := do
  if ← check source .rparen then return none
  else return some (← expression).tree

/-- What follows the first part, which the others may refer to. -/
def forRest (first : Option Tree) : Parse Typed := do
  expect source .semicolon "after loop initialiser"
  let test ← loopTest source expression
  expect source .semicolon "after loop condition"
  let step ← loopStep source expression
  expect source .rparen "after loop increment"
  let body ← loopBody expression
  return scalarNode (.forLoop first test step body)

def forParts : Parse Typed := do
  let first ← loopStart source expression
  forRest source expression first

def forLoop : Parse Typed := do
  expect source .lparen "after 'for'"
  inScope (forParts source expression)

def whileLoop : Parse Typed := do
  expect source .lparen "after 'while'"
  let test ← scalarExpression source expression "loop condition"
  expect source .rparen "after loop condition"
  let body ← loopBody expression
  return scalarNode (.whileLoop test body)

def repeatLoop (position : Nat) : Parse Typed := do
  let items ← inLoop (block source expression .until)
  if ← eatWord source "until" then
    expect source .lparen "after 'until'"
    let stop ← scalarExpression source expression "loop condition"
    expect source .rparen "after loop condition"
    return scalarNode (.repeatLoop (sequence items).tree stop)
  else fail source position .missingUntil

def breakExpression (position : Nat) : Parse Typed := do
  requireLoop source position "break"
  if ← eat source .lbracket then
    let value ← scalarExpression source expression "break value"
    expect source .rbracket "after break value"
    return scalarNode (.breakLoop (some value))
  else return scalarNode (.breakLoop none)

def continueExpression (position : Nat) : Parse Typed := do
  requireLoop source position "continue"
  return scalarNode .continueLoop

def returnExpression : Parse Typed := do
  if ← eat source .lbracket then
    if ← eat source .rbracket then return scalarNode (.returnList [])
    else
      let items ← commaList source expression .rbracket "to close return list"
        source.allowance []
      return scalarNode (.returnList (items.map Typed.tree))
  else return scalarNode (.returnList [])

/-! ### Names -/

/-- An index or an end of a range; none in front of `close`. -/
def bound? (close : Sym) : Parse (Option Tree) := do
  if ← check source close then return none
  else return some (← scalarExpression source expression "index")

/-- A variable with what may stand in brackets behind it: nothing for its size, an index, or
a range. -/
def access (b : Binding) (position : Nat) : Parse Typed := do
  if !(← check source .lbracket) then return ⟨.load b, b.kind⟩
  else if b.kind = .scalar then fail source position (.notIndexable b.name)
  else
    let _ ← advance source
    if ← eat source .rbracket then return scalarNode (.size b)
    else
      let first ← bound? source expression .colon
      if ← eat source .colon then
        let last ← bound? source expression .rbracket
        expect source .rbracket "to close range"
        return ⟨.slice b first last, b.kind⟩
      else
        expect source .rbracket "to close index"
        match first with
        | some index => return ⟨.element b index, if b.kind = .vector then .scalar else b.kind⟩
        | none => fail source position .missingIndex

/-- The arguments in parentheses; none if there are no parentheses. -/
def arguments? : Parse (Option (List Typed)) := do
  if ← eat source .lparen then
    if ← eat source .rparen then return some []
    else
      let args ← commaList source expression .rparen "to close argument list"
        source.allowance []
      return some args
  else return none

/-- What a symbol of the table is to a program: storage, or a function to call. -/
def place? : Symbol → Option Place
  | .scalar c => some (.scalar c)
  | .constant x => some (.constant x)
  | .vector c => some (.vector c)
  | .string c => some (.string c)
  | .function _ => none

def symbolNode (name : String) (s : Symbol) (position : Nat) : Parse Typed := do
  match s with
  | .function f => call source name f ((← arguments? source expression).getD []) position
  | .scalar c => access source expression ⟨name, .scalar c, !source.table.immutable⟩ position
  | .constant x => access source expression ⟨name, .constant x, false⟩ position
  | .vector c => access source expression ⟨name, .vector c, !source.table.immutable⟩ position
  | .string c => access source expression ⟨name, .string c, !source.table.immutable⟩ position

/-- Locals hide symbols, and symbols hide built-in functions. -/
def identifier (name : String) (position : Nat) : Parse Typed := do
  match findLocal name (← get).scopes with
  | some l => access source expression ⟨name, .slot l.slot l.kind, l.writable⟩ position
  | none =>
      match source.table.find? name with
      | some s => symbolNode source expression name s position
      | none =>
          if isBuiltin name then
            match ← arguments? source expression with
            | some args => builtin source name args position
            | none => fail source position (.missingCall name)
          else fail source position (.undefined name)

def word (name : String) (position : Nat) : Parse Typed :=
  match name with
  | "true" => return scalarNode (.number 1)
  | "false" => return scalarNode (.number 0)
  | "null" => return scalarNode .null
  | "if" => ifExpression source expression position
  | "switch" => switch source expression
  | "for" => forLoop source expression
  | "while" => whileLoop source expression
  | "repeat" => repeatLoop source expression position
  | "break" => breakExpression source expression position
  | "continue" => continueExpression source position
  | "return" => returnExpression source expression
  | "var" | "const" => fail source position .misplacedDeclaration
  | _ => identifier source expression name position

def primary : Parse Typed := do
  let here ← position source
  if ← check source .semicolon then fail source here (.unexpected (some (.sym .semicolon)))
  else
    match ← advance source with
    | none => fail source here (.unexpected none)
    | some (.number x) => return scalarNode (.number x)
    | some (.text s) => return ⟨.text s, .string⟩
    | some (.word name) => word source expression name here
    | some (.sym .lparen) =>
        let inner ← expression
        expect source .rparen "to close '('"
        return inner
    | some (.sym .lbrace) => brace source expression here
    | some (.sym s) => fail source here (.unexpected (some (.sym s)))

end MathScript.Parse
