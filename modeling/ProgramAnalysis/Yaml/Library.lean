import ProgramAnalysis.Yaml.Document
import ProgramAnalysis.Yaml.Outline
/-!
What settings take from a library for YAML: the text that it writes for fields with values, the
document that it finds in a text, and what plain scalars stand for. Nothing is asked of a library
here; `standard` is the one that programs run with.
-/
namespace ProgramAnalysis.Yaml

/-- A value, apart from how it is written. -/
inductive Datum where
  | number (n : UInt32)
  | truth (b : Bool)
  | text (s : String)

/-- The fields of a mapping from one of them on, apart from how they are written. -/
inductive Fields where
  | nil
  | scalar (key : String) (value : Datum) (rest : Fields)
  | mapping (key : String) (inner rest : Fields)

structure Library where
  schema : Schema
  /-- The scalar that a value is written as. -/
  scalar : Datum → Scalar
  write : Fields → String
  read : String → Document

/-- Numbers and truth values are plain. -/
def Datum.scalar : Datum → Scalar
  | .number n => ⟨.plain, toString n.toNat⟩
  | .truth b => ⟨.plain, toString b⟩
  | .text s => ⟨styleOf s, s⟩

def Fields.outline : Fields → Outline
  | nil => .nil
  | scalar key value rest => .scalar key value.scalar.style value.scalar.text rest.outline
  | mapping key inner rest => .mapping key inner.outline rest.outline

def Library.standard : Library where
  schema := .standard
  scalar := Datum.scalar
  write f := String.ofList (f.outline.text 0)
  read := Document.ofText

end ProgramAnalysis.Yaml
