import MathScript.Parse.Statement

/-!
Compilation of a program text against a table of symbols.
-/

namespace MathScript

namespace Parse

variable (source : Source)

/-- The precedence of what a unary operator applies to: tighter than every operator but the
power. -/
def unaryPrecedence : Nat := 7

/-- An operand: an optional unary operator and what it applies to. `inner` are the operands
one level further in. -/
def prefixed (inner : Parse Typed) : Parse Typed := do
  let here ← position source
  match ← peek source with
  | some (.sym (.op .minus)) =>
      let _ ← advance source
      let node ← chain source inner unaryPrecedence
      if node.kind = .string then fail source here .negatedString
      else return ⟨.apply .negate [node.tree], node.kind⟩
  | some (.sym (.op .plus)) =>
      let _ ← advance source
      let node ← chain source inner unaryPrecedence
      if node.kind = .string then fail source here .plusString else return node
  | some (.sym .bang) | some (.word "not") =>
      let _ ← advance source
      let node ← chain source inner unaryPrecedence
      let tree ← requireScalar source node here "operand of 'not'"
      return scalarNode (.apply .not [tree])
  | _ => primary source (expression source inner)

def tooDeep : Parse Typed := do
  let here ← position source
  fail source here (.nestedTooDeep source.limits.nesting)

/-- An operand with `levels` levels of nesting left. -/
def operand : Nat → Parse Typed
  | 0 => fun s => tooDeep source s
  | levels + 1 => fun s => prefixed source (operand levels) s

def program : Parse (List Typed) :=
  statements source (expression source (operand source source.limits.nesting)) .input
    source.allowance []

end Parse

namespace Compile

open Parse

def parameterScope : Nat → List String → Scope
  | _, [] => []
  | slot, name :: names => (name, ⟨slot, .scalar, true⟩) :: parameterScope (slot + 1) names

/-- Before the first token. The parameters take the first slots of the frame. -/
def start (settings : Settings) (params : List String) (text : List Char) : State :=
  { ahead := []
    rest := Lexeme.read settings.implicitMultiplication text
    diagnostics := #[]
    scopes := [parameterScope 0 params]
    frameSize := params.length
    loopDepth := 0
    afterBrace := false }

end Compile

open Parse Compile in
/-- Reads a text whose first locals are `params`. There is a program exactly when there is no
diagnostic. -/
def parse (table : Table) (settings : Settings) (params : List String) (text : String) :
    Except (List Diagnostic) Program :=
  let chars := text.toList
  let first := start settings params chars
  let source : Source :=
    ⟨chars, table, settings.limits, first.rest.length + settings.maxErrors + 2⟩
  match program source first with
  | .error d _ => .error [d]
  | .ok items s =>
      if s.diagnostics.isEmpty then .ok ⟨(sequence items).tree, s.frameSize⟩
      else .error s.diagnostics.toList

/-- Compiles a text: the program read from it, folded if the settings ask for that. -/
def compile (table : Table) (settings : Settings) (params : List String) (text : String) :
    Except (List Diagnostic) Program :=
  (parse table settings params text).map fun p =>
    if settings.constantFolding then p.fold else p

end MathScript
