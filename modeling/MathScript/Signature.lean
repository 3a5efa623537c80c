import MathScript.Blank
import MathScript.Value

/-!
Signatures of functions overloaded on the kinds of their parameters. A signature is a list of
alternatives separated by `|`; an alternative is `Z` for no parameters, or tags `T`, `V`, `S`
and `?`, the last of which may be followed by `*` and then stands for any number of parameters.
-/

namespace MathScript

inductive ParamKind where
  | exact (kind : Kind)
  | any
  deriving DecidableEq

namespace ParamKind

def accepts (p : ParamKind) (kind : Kind) : Bool :=
  match p with
  | .exact expected => expected == kind
  | .any => true

def ofTag? : Char → Option ParamKind
  | 'T' => some (.exact .scalar)
  | 'V' => some (.exact .vector)
  | 'S' => some (.exact .string)
  | '?' => some .any
  | _ => none

def name : ParamKind → String
  | .exact kind => kind.name
  | .any => "any"

end ParamKind

/-- Fixed parameters, then any number of parameters of the kind `repeats`. -/
structure Overload where
  params : List ParamKind
  repeats : Option ParamKind
  deriving DecidableEq

namespace Overload

def acceptsTail (repeats : Option ParamKind) (kinds : List Kind) : Bool :=
  match repeats with
  | none => kinds.isEmpty
  | some p => kinds.all p.accepts

def accepts : List ParamKind → Option ParamKind → List Kind → Bool
  | [], repeats, kinds => acceptsTail repeats kinds
  | _ :: _, _, [] => false
  | p :: params, repeats, kind :: kinds => p.accepts kind && accepts params repeats kinds

/-- Reads tags up to the end; a tag before `*` closes the list. -/
def ofTags? : List Char → Option Overload
  | [] => some ⟨[], none⟩
  | [tag, '*'] => (ParamKind.ofTag? tag).map fun p => ⟨[], some p⟩
  | tag :: tags =>
      match ParamKind.ofTag? tag, ofTags? tags with
      | some p, some o => some { o with params := p :: o.params }
      | _, _ => none

/-- Reads one alternative, blanks around it aside. -/
def parse? (text : List Char) : Option Overload :=
  match trimBlank text with
  | ['Z'] => some ⟨[], none⟩
  | [] => none
  | tags => ofTags? tags

end Overload

structure Signature where
  overloads : List Overload
  deriving DecidableEq

namespace Signature

/-- The parts of a text between occurrences of `mark`; there is always one. -/
def parts (mark : Char) : List Char → List (List Char)
  | [] => [[]]
  | c :: cs =>
      if c = mark then [] :: parts mark cs
      else
        match parts mark cs with
        | [] => [[c]]
        | first :: rest => (c :: first) :: rest

/-- None when some alternative is malformed. -/
def parse? (text : String) : Option Signature :=
  ((parts '|' text.toList).mapM Overload.parse?).map Signature.mk

/-- The index of the first alternative that accepts arguments of these kinds. -/
def resolve (s : Signature) (kinds : List Kind) : Option Nat :=
  s.overloads.findIdx? fun o => Overload.accepts o.params o.repeats kinds

end Signature

end MathScript
