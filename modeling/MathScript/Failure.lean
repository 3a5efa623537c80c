import MathScript.Diagnostic
import MathScript.Fault

/-!
Failures of whole tasks: compiling and evaluating at once, or composing a function.
-/

namespace MathScript

inductive Failure where
  | compilation (diagnostics : List Diagnostic)
  | evaluation (fault : Fault)
  | symbol (error : SymbolError)

def Failure.message : Failure → String
  | .compilation diagnostics => "CompileError: " ++ Diagnostic.summary diagnostics
  | .evaluation fault => "RuntimeError: " ++ fault.message
  | .symbol error => "SymbolError: " ++ error.message

end MathScript
