import ProgramAnalysis.Yaml.Block
import ProgramAnalysis.Yaml.Plain
import ProgramAnalysis.Yaml.Quoted
import ProgramAnalysis.Yaml.Resolution
/-!
The five ways to write a scalar, and which of them a text gets.
-/
namespace ProgramAnalysis.Yaml

inductive Style where
  | plain
  | singleQuoted
  | doubleQuoted
  | literal
  | folded
deriving DecidableEq, Repr

/-- A scalar as it stands in a document. -/
structure Scalar where
  style : Style
  text : String

/-- Reading a quoted scalar drops spaces next to its breaks. -/
def fitsSingle (s : List Char) : Bool :=
  s.all isPrintable && !anyPair isBreak (· == ' ') s && !anyPair (· == ' ') isBreak s

def fitsLiteral (s : List Char) : Bool :=
  s.all isPrintable && s.getLast? != some ' ' && !anyPair (· == ' ') isBreak s

/-- Text of several lines is written as a block. What would be read as something other than text
is quoted, and so is what does not fit its style: singly if possible. -/
def styleOf (s : String) : Style :=
  let cs := s.toList
  if cs.contains '\n' then if fitsLiteral cs then .literal else .doubleQuoted
  else if isText s && cs.all isPrintable && !cs.any isBreak && fitsPlain cs then .plain
  else if fitsSingle cs then .singleQuoted
  else .doubleQuoted

/-- A scalar in a given style, with the end of its line. -/
def writeScalar (margin : Nat) (style : Style) (s : List Char) : List Char :=
  match style with
  | .plain => s ++ ['\n']
  | .singleQuoted => writeSingle margin s ++ ['\n']
  | .literal => writeLiteral margin s ++ if endsInBreak s then [] else ['\n']
  | .doubleQuoted | .folded => writeDouble s ++ ['\n']

end ProgramAnalysis.Yaml
