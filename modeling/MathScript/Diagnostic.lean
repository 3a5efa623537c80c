import MathScript.Bytes
import MathScript.Token

/-!
Diagnostics of a compilation: what was wrong, and where. The category and the wording of a
diagnostic are determined by its cause.
-/

namespace MathScript

inductive Category where
  | lexer | syntactic | symbol | type | arity | assignment | semantic
  deriving DecidableEq

def Category.name : Category → String
  | .lexer => "lexer"
  | .syntactic => "syntax"
  | .symbol => "symbol"
  | .type => "type"
  | .arity => "arity"
  | .assignment => "assignment"
  | .semantic => "semantic"

inductive Cause where
  -- characters
  | unterminatedComment
  | unterminatedString
  | invalidNumber (text : String)
  | unexpectedChar (c : Char)
  -- tokens
  | expected (sym : Sym) (context : String) (found : Option Token)
  | unexpected (found : Option Token)
  | missingSeparator (found : Option Token)
  | constWithoutVar
  | missingVariableName
  | misplacedDeclaration
  | unclosedBrace
  | missingCase (found : Option Token)
  | duplicateDefault
  | missingUntil
  | missingIndex
  | missingCall (builtin : String)
  -- names
  | unusableName (name : String)
  | redeclared (name : String)
  | undefined (name : String)
  -- kinds
  | notScalar (what : String) (found : Kind)
  | vectorWithoutSize (name : String)
  | vectorFrom (name : String) (found : Kind)
  | unassignable (op : AssignOp) (name : String) (target value : Kind)
  | unequalSwap (left right : Kind)
  | unequalBranches (first second : Kind)
  | unequalCases (first found : Kind)
  | uncombinable (op : Op) (left right : Kind)
  | negatedString
  | plusString
  | notIndexable (name : String)
  | argument (place : Nat) (function : String) (found : Kind)
  | noOverload (function : String) (kinds : List Kind)
  | stringArgument (function : String)
  -- counts of arguments
  | wrongArity (function : String) (wanted found : Nat)
  | noArguments (function : String)
  -- targets of assignments
  | constantTarget (name : String)
  | notTarget
  | readOnly (name : String)
  -- meaning
  | constWithoutValue (name : String)
  | vectorTooLarge (size : Float) (limit : Nat)
  | vectorSize
  | tooManyValues (count : Nat) (name : String) (length : Nat)
  | unknownSize (name : String)
  | nestedTooDeep (limit : Nat)
  | outsideLoop (keyword : String)
  | stalled
  deriving DecidableEq

namespace Cause

def category : Cause → Category
  | .unterminatedComment | .unterminatedString | .invalidNumber _ | .unexpectedChar _ => .lexer
  | .expected .. | .unexpected _ | .missingSeparator _ | .constWithoutVar | .missingVariableName
  | .misplacedDeclaration | .unclosedBrace | .missingCase _ | .duplicateDefault | .missingUntil
  | .missingIndex | .missingCall _ => .syntactic
  | .unusableName _ | .redeclared _ | .undefined _ => .symbol
  | .notScalar .. | .vectorWithoutSize _ | .vectorFrom .. | .unassignable .. | .unequalSwap ..
  | .unequalBranches .. | .unequalCases .. | .uncombinable .. | .negatedString | .plusString
  | .notIndexable _ | .argument .. | .noOverload .. | .stringArgument _ => .type
  | .wrongArity .. | .noArguments _ => .arity
  | .constantTarget _ | .notTarget | .readOnly _ => .assignment
  | .constWithoutValue _ | .vectorTooLarge .. | .vectorSize | .tooManyValues .. | .unknownSize _
  | .nestedTooDeep _ | .outsideLoop _ | .stalled => .semantic

def message : Cause → String
  | .unterminatedComment => "unterminated comment"
  | .unterminatedString => "unterminated string literal"
  | .invalidNumber text => "invalid number '" ++ text ++ "'"
  | .unexpectedChar c => "unexpected character in input: " ++ c.toString
  | .expected sym context found =>
      "expected " ++ (Token.sym sym).describe ++ " " ++ context ++ ", found " ++
        Token.describe? found
  | .unexpected found => "unexpected " ++ Token.describe? found
  | .missingSeparator found =>
      "expected ';' between statements, found " ++ Token.describe? found
  | .constWithoutVar => "expected 'var' after 'const'"
  | .missingVariableName => "expected a variable name after 'var'"
  | .misplacedDeclaration => "declarations are only allowed as statements"
  | .unclosedBrace => "unclosed '\x7b'"
  | .missingCase found =>
      "expected 'case', 'default' or '\x7d' in switch, found " ++ Token.describe? found
  | .duplicateDefault => "duplicate 'default'"
  | .missingUntil => "'repeat' without 'until'"
  | .missingIndex => "missing index"
  | .missingCall name => "expected '(' after built-in function '" ++ name ++ "'"
  | .unusableName name => "'" ++ name ++ "' cannot be used as a variable name"
  | .redeclared name => "'" ++ name ++ "' is already declared in this scope"
  | .undefined name => "undefined symbol '" ++ name ++ "'"
  | .notScalar what found => what ++ " must be a scalar, not a " ++ found.name
  | .vectorWithoutSize name =>
      "declare '" ++ name ++ "' as 'var " ++ name ++ "[size]' to hold a vector"
  | .vectorFrom name found =>
      "cannot initialise vector '" ++ name ++ "' from a " ++ found.name
  | .unassignable op name target value =>
      "cannot apply '" ++ op.symbol ++ "' to '" ++ name ++ "' (" ++ target.name ++
        ") with a " ++ value.name ++ " value"
  | .unequalSwap left right => "cannot swap a " ++ left.name ++ " with a " ++ right.name
  | .unequalBranches left right => "branches yield a " ++ left.name ++ " and a " ++ right.name
  | .unequalCases first found => "switch cases yield a " ++ first.name ++ " and a " ++ found.name
  | .uncombinable op left right =>
      "operator '" ++ op.symbol ++ "' cannot combine a " ++ left.name ++ " with a " ++ right.name
  | .negatedString => "cannot negate a string"
  | .plusString => "unary '+' needs a number"
  | .notIndexable name => "scalar '" ++ name ++ "' cannot be indexed"
  | .argument place function found =>
      "argument " ++ toString place ++ " of '" ++ function ++ "' must be a scalar, not a " ++
        found.name
  | .noOverload function kinds =>
      "no overload of '" ++ function ++ "' accepts (" ++
        String.intercalate ", " (kinds.map Kind.name) ++ ")"
  | .stringArgument function => "'" ++ function ++ "' cannot be applied to a string"
  | .wrongArity function wanted found =>
      "'" ++ function ++ "' takes " ++ toString wanted ++ " argument(s), " ++ toString found ++
        " given"
  | .noArguments function => "'" ++ function ++ "' needs at least one argument"
  | .constantTarget name => "cannot assign to constant '" ++ name ++ "'"
  | .notTarget => "left-hand side is not assignable"
  | .readOnly name => "'" ++ name ++ "' is read-only"
  | .constWithoutValue name => "constant '" ++ name ++ "' needs an initial value"
  | .vectorTooLarge size limit =>
      "vector size " ++ Decimal.plain.write size ++ " exceeds the limit of " ++ toString limit ++
        " elements"
  | .vectorSize => "vector size must be a positive integer constant"
  | .tooManyValues count name length =>
      toString count ++ " initial values do not fit in '" ++ name ++ "[" ++ toString length ++ "]'"
  | .unknownSize name => "size of vector '" ++ name ++ "' cannot be inferred"
  | .nestedTooDeep limit => "expression nested deeper than " ++ toString limit ++ " levels"
  | .outsideLoop keyword => "'" ++ keyword ++ "' outside of a loop"
  | .stalled => "the program cannot be parsed any further"

end Cause

namespace Location

/-- The characters before a byte position; all of them if the text cannot be cut there. -/
def before (source : List Char) (position : Nat) : List Char :=
  ((cutAt? source position).map Prod.fst).getD source

def line (prior : List Char) : Nat := prior.count '\n' + 1

def column (prior : List Char) : Nat := (prior.reverse.takeWhile (· ≠ '\n')).length + 1

end Location

/-- Lines and columns count from one, columns in characters; positions count bytes. -/
structure Diagnostic where
  position : Nat
  line : Nat
  column : Nat
  cause : Cause
  deriving DecidableEq

namespace Diagnostic

def locate (source : List Char) (position : Nat) (cause : Cause) : Diagnostic :=
  let prior := Location.before source position
  ⟨min position (utf8Length source), Location.line prior, Location.column prior, cause⟩

def category (d : Diagnostic) : Category := d.cause.category

def message (d : Diagnostic) : String := d.cause.message

/-- The diagnostic in one line. -/
def display (d : Diagnostic) : String :=
  d.category.name ++ " error at " ++ toString d.line ++ ":" ++ toString d.column ++ ": " ++
    d.message

/-- A failed compilation in one line: its first diagnostic and the number of others. -/
def summary : List Diagnostic → String
  | [] => "compilation failed"
  | [single] => single.display
  | first :: rest => first.display ++ " (and " ++ toString rest.length ++ " more)"

end Diagnostic

end MathScript
