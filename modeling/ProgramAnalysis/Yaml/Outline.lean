import ProgramAnalysis.Yaml.Scalar
/-!
Mappings the way they are written: a field on a line, a nested mapping on the lines below its key.
-/
namespace ProgramAnalysis.Yaml

/-- The fields of a mapping from one of them on. -/
inductive Outline where
  | nil
  | scalar (key : String) (style : Style) (text : String) (rest : Outline)
  | mapping (key : String) (inner rest : Outline)

def Outline.text (margin : Nat) : Outline → List Char
  | nil => []
  | scalar key style value rest =>
    spaces margin ++ key.toList ++ ':' :: ' ' ::
      writeScalar (margin + indentStep) style value.toList ++ rest.text margin
  | mapping key inner rest =>
    spaces margin ++ key.toList ++ ':' :: '\n' :: inner.text (margin + indentStep) ++
      rest.text margin

end ProgramAnalysis.Yaml
