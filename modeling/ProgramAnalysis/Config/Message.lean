import ProgramAnalysis.Config.Error
import ProgramAnalysis.Text.Split
/-!
What becomes of the message of a problem with a file. An unknown field is told from the rest by
the words alone, so that a value which reads like such a message is taken for one.
-/
namespace ProgramAnalysis

namespace ConfigError

/-- Every second piece between ticks, from the first that is inside a pair. -/
def inTicks (s : List Char) : List String :=
  let rec odd : List (List Char) → List String
    | _ :: p :: ps => String.ofList p :: odd ps
    | _ => []
  odd (Text.pieces '\x60' s)

/-- The section in front of a message. -/
def sectionOf (s : List Char) : String :=
  let s := ((Text.dropBlankEnd s).reverse.dropWhile (· == ':')).reverse
  if s.isEmpty then "<root>" else String.ofList s

/-- An unknown field is recognised by the words before its name in ticks; the ticks after it hold
the valid fields. A message without such words, or without the second tick, is any other one. -/
def ofMessage (message : String) : ConfigError :=
  match Text.cut? "unknown field `".toList message.toList with
  | none => .malformed message
  | some (lead, rest) =>
    match Text.cut? ['\x60'] rest with
    | none => .malformed message
    | some (field, rest) =>
      .unknownField (String.ofList field) (sectionOf lead)
        (inTicks (Text.before " at line ".toList rest))

end ConfigError
end ProgramAnalysis
