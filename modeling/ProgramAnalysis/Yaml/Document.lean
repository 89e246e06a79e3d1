import ProgramAnalysis.Yaml.Event
import ProgramAnalysis.Yaml.Lexer
/-!
The one document of a stream, as a list of items that references jump about in.
-/
namespace ProgramAnalysis.Yaml

inductive Item where
  /-- Goes on at the item with this place. -/
  | jump (place : Nat)
  | scalar (tag : Option String) (style : Style) (text : String)
  | sequenceStart (tag : Option String)
  | sequenceEnd
  | mappingStart (tag : Option String)
  | mappingEnd
  /-- A stream without documents. -/
  | void
deriving DecidableEq, Repr

/-- What is known of anchors: a name has a number, and a number has a place. -/
structure Anchors where
  numbers : List (String × Nat)
  places : List (Nat × Nat)

namespace Anchors

def empty : Anchors := ⟨[], []⟩

/-- An anchor gets as its number how many names there are, so that the number of a name which
was given twice goes to the next new name too. The latest place counts. -/
def add (a : Anchors) (name : Option String) (place : Nat) : Anchors :=
  match name with
  | none => a
  | some name =>
    let number := (a.numbers.map Prod.fst).eraseDups.length
    ⟨(name, number) :: a.numbers, (number, place) :: a.places⟩

end Anchors

/-- An item whose reference is still a number. -/
abbrev Draft := Array Item × Anchors

structure Document where
  items : Array Item
  /-- No error, and nothing after the document. -/
  sound : Bool

namespace Document

/-- Puts places in for the numbers of anchors. -/
def settle (d : Draft) (sound : Bool) : Document :=
  ⟨d.1.map fun
    | .jump number => .jump ((d.2.places.lookup number).getD 0)
    | item => item, sound⟩

/-- The items up to the end of the document, to an error or to a reference without anchor. -/
def collect (d : Draft) : List Event → Document
  | [] => settle d false
  | e :: es =>
    let (items, anchors) := d
    match e with
    | .documentStart => collect d es
    | .documentEnd => settle d (es = [.streamEnd])
    | .streamEnd => settle (if items.isEmpty then (#[.void], anchors) else d) true
    | .reference a =>
      match anchors.numbers.lookup a with
      | none => settle d false
      | some number => collect (items.push (.jump number), anchors) es
    | .scalar a tag style text =>
      collect (items.push (.scalar tag style text), anchors.add a items.size) es
    | .sequenceStart a tag => collect (items.push (.sequenceStart tag), anchors.add a items.size) es
    | .sequenceEnd => collect (items.push .sequenceEnd, anchors) es
    | .mappingStart a tag => collect (items.push (.mappingStart tag), anchors.add a items.size) es
    | .mappingEnd => collect (items.push .mappingEnd, anchors) es

def ofText (s : String) : Document := collect (#[], .empty) (events (tokens s.toList))

end Document
end ProgramAnalysis.Yaml
