import ProgramAnalysis.Yaml.Char
/-!
Line folding: a scalar that runs over several lines has a space where one line ends and the next
begins, and as many breaks as there are empty lines between them.
-/
namespace ProgramAnalysis.Yaml

/-- What lies between two words: blanks on one line, breaks, or breaks after one that was
escaped. Blanks next to a break are dropped. -/
inductive Gap where
  | blanks (s : List Char)
  | breaks (s : List Char)
  | joined (s : List Char)
deriving DecidableEq

namespace Gap

def empty : Gap := .blanks []

def add (c : Char) : Gap → Gap
  | .blanks s => if isBreak c then .breaks [c] else .blanks (s ++ [c])
  | .breaks s => if isBreak c then .breaks (s ++ [c]) else .breaks s
  | .joined s => if isBreak c then .joined (s ++ [c]) else .joined s

def isBroken : Gap → Bool
  | .blanks _ => false
  | _ => true

def isEmpty (g : Gap) : Bool := g == .empty

/-- A line feed alone is a space, before other breaks it is nothing; the other breaks stay. -/
def text : Gap → List Char
  | .blanks s => s
  | .breaks ['\n'] => [' ']
  | .breaks ('\n' :: s) => s
  | .breaks s => s
  | .joined s => s

@[simp] theorem text_empty : empty.text = [] := rfl

end Gap
end ProgramAnalysis.Yaml
