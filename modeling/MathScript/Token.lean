import MathScript.Decimal
import MathScript.Operator

/-!
Tokens of program text and their wording in messages.
-/

namespace MathScript

/-- Operators and punctuation. -/
inductive Sym where
  | op (op : Op)
  | bang
  | assign (op : AssignOp)
  | swap
  | lparen | rparen | lbracket | rbracket | lbrace | rbrace
  | comma | semicolon | colon | question
  deriving DecidableEq

def Sym.text : Sym → String
  | .op o => o.symbol
  | .bang => "!"
  | .assign o => o.symbol
  | .swap => "<=>"
  | .lparen => "("
  | .rparen => ")"
  | .lbracket => "["
  | .rbracket => "]"
  | .lbrace => "\x7b"
  | .rbrace => "\x7d"
  | .comma => ","
  | .semicolon => ";"
  | .colon => ":"
  | .question => "?"

inductive Token where
  | number (x : Float)
  | word (name : String)
  | text (value : String)
  | sym (s : Sym)
  deriving DecidableEq

namespace Token

/-- Wording in a diagnostic. -/
def describe : Token → String
  | .number x => "number '" ++ Decimal.plain.write x ++ "'"
  | .word name => "'" ++ name ++ "'"
  | .text value => "string '" ++ value ++ "'"
  | .sym s => "'" ++ s.text ++ "'"

def describe? : Option Token → String
  | some t => t.describe
  | none => "end of input"

def isNumber : Token → Bool
  | .number _ => true
  | _ => false

end Token

end MathScript
