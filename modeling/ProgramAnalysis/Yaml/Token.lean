import ProgramAnalysis.Yaml.Scalar
/-!
Words and marks of a YAML stream. Indentation shows as starts and ends of blocks.
-/
namespace ProgramAnalysis.Yaml

inductive Token where
  | version (major minor : Nat)
  | tagHandle (handle stem : String)
  | documentStart
  | documentEnd
  | blockSequenceStart
  | blockMappingStart
  | blockEnd
  | flowSequenceStart
  | flowSequenceEnd
  | flowMappingStart
  | flowMappingEnd
  | blockEntry
  | flowEntry
  | key
  | value
  | reference (anchor : String)
  | anchor (name : String)
  | tag (handle suffix : String)
  | scalar (style : Style) (text : String)
  | streamEnd
deriving DecidableEq, Repr

/-- At least one word character, and what follows them. -/
def readWord (s : List Char) : Option (String × List Char) :=
  let word := s.takeWhile isWord
  if word.isEmpty then none else some (String.ofList word, s.dropWhile isWord)

/-- A name of an anchor, which ends at a gap or at one of a few marks. -/
def readName (s : List Char) : Option (String × List Char) := do
  let (name, rest) ← readWord s
  if atGap rest || rest.head?.any (fun c => ['?', ':', ',', ']', '}', '%', '@', '\x60'].contains c)
  then return (name, rest)
  else none

end ProgramAnalysis.Yaml
