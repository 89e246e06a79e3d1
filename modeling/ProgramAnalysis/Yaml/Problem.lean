import ProgramAnalysis.Text.Quoted
/-!
Why a document does not have the form that was asked for, in words.
-/
namespace ProgramAnalysis.Yaml

inductive Problem where
  | unknownField (path : List String) (field : String) (fields : List String)
  | unknownVariant (path : List String) (text : String) (variants : List String)
  | wrongType (path : List String) (text expected : String)
  | wrongValue (path : List String) (text expected : String)
  /-- No YAML, no mapping, a field given twice, and whatever has no text to show. -/
  | malformed
deriving DecidableEq, Repr

namespace Problem

def ticked (s : String) : String := "`" ++ s ++ "`"

def oneOf : List String → String
  | [] => "nothing"
  | [a] => ticked a
  | [a, b] => ticked a ++ " or " ++ ticked b
  | as => "one of " ++ ", ".intercalate (as.map ticked)

/-- Where the problem is; nothing at the top. -/
def place : List String → String
  | [] => ""
  | path => ".".intercalate path ++ ": "

def quoted (s : String) : String := String.ofList (Text.quoted s.toList)

def message : Problem → String
  | .unknownField path field fields =>
    place path ++ "unknown field " ++ ticked field ++ ", expected " ++ oneOf fields
  | .unknownVariant path text variants =>
    place path ++ "unknown variant " ++ ticked text ++ ", expected " ++ oneOf variants
  | .wrongType path text expected =>
    place path ++ "invalid type: string " ++ quoted text ++ ", expected " ++ expected
  | .wrongValue path text expected =>
    place path ++ "invalid value: string " ++ quoted text ++ ", expected " ++ expected
  | .malformed => "malformed document"

end Problem

end ProgramAnalysis.Yaml
