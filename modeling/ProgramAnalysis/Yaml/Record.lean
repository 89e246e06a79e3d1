import ProgramAnalysis.Yaml.Document
import ProgramAnalysis.Yaml.Problem
/-!
Records read from a document, field by field in the order of the document. The first problem is
the answer.
-/
namespace ProgramAnalysis.Yaml

namespace Document

/-- What is read, and the place after it. -/
abbrev Placed (α : Type) := α × Nat

/-- An item, perhaps at the end of a jump. -/
structure Found where
  item : Item
  /-- The place after the item. -/
  next : Nat
  jumped : Bool

def find (d : Document) (place : Nat) : Except Problem Found :=
  match d.items[place]? with
  | none => .error .malformed
  | some (.jump target) =>
    match d.items[target]? with
    | none => .error .malformed
    | some item => .ok ⟨item, target + 1, true⟩
  | some item => .ok ⟨item, place + 1, false⟩

/-- Goes on after the jump, where there was one. -/
def Found.leave (f : Found) (place stop : Nat) : Nat := if f.jumped then place + 1 else stop

/-- The fields of a mapping from `place` on. Each is read by `read`, from what the fields before
it gave; every round passes a key. -/
def readFields {α : Type} (d : Document) (path names : List String)
    (read : α → String → List String → Nat → Except Problem (Placed α)) :
    Nat → List String → α → Nat → Except Problem (Placed α)
  | 0, _, _, _ => .error .malformed
  | fuel + 1, seen, a, place => do
    let key ← d.find place
    match key.item with
    | .mappingEnd => return (a, place + 1)
    | .scalar _ _ name =>
      if !names.contains name then .error (.unknownField path name names)
      else if seen.contains name then .error .malformed
      else
        let (a, place) ← read a name (path ++ [if key.jumped then "?" else name]) (place + 1)
        readFields d path names read fuel (name :: seen) a place
    | _ => .error .malformed

/-- A mapping with some of the fields. Nothing, and an empty plain scalar, has none of them. -/
def readRecord {α : Type} (d : Document) (path : List String) (expected : String)
    (names : List String) (default : α)
    (read : α → String → List String → Nat → Except Problem (Placed α)) (place : Nat) :
    Except Problem (Placed α) := do
  let f ← d.find place
  match f.item with
  | .mappingStart _ =>
    let (a, stop) ← d.readFields path names read (d.items.size + 1) [] default f.next
    return (a, f.leave place stop)
  | .void => return (default, f.leave place f.next)
  | .scalar _ style text =>
    if style = .plain && text.isEmpty then return (default, f.leave place f.next)
    else .error (.wrongType path text expected)
  | _ => .error .malformed

/-- A scalar that `value?` makes something of. -/
def readScalar {α : Type} (d : Document) (path : List String) (expected : String)
    (value? : Option String → Style → String → Option α) (place : Nat) :
    Except Problem (Placed α) := do
  let f ← d.find place
  match f.item with
  | .scalar tag style text =>
    match value? tag style text with
    | some a => return (a, place + 1)
    | none => .error (.wrongType path text expected)
  | _ => .error .malformed

def coreTag (name : String) : String := "tag:yaml.org,2002:" ++ name

/-- A scalar stands for more than its text if it is plain, or literal with the tag that says
so. -/
def isResolved (tag : String) : Option String → Style → Bool
  | _, .plain => true
  | some t, .literal => t == coreTag tag
  | _, _ => false

def readBool (d : Document) (y : Schema) (path : List String) :
    Nat → Except Problem (Placed Bool) :=
  d.readScalar path "a boolean" fun tag style text =>
    if isResolved "bool" tag style then y.bool? text else none

def readNumber (d : Document) (y : Schema) (path : List String) :
    Nat → Except Problem (Placed Nat) :=
  d.readScalar path "u32" fun tag style text =>
    if isResolved "int" tag style then (y.number? text).filter (· < 0x100000000) else none

def readText (d : Document) (path : List String) : Nat → Except Problem (Placed String) :=
  d.readScalar path "a string" fun _ _ text => some text

/-- Whether a scalar stands for nothing; the outer path is that of the mapping. -/
def isAbsent (y : Schema) (outer : List String) : Item → Except Problem Bool
  | .void => .ok true
  | .scalar tag .plain text =>
    match tag with
    | none => .ok (y.isNone text)
    | some t =>
      if t != coreTag "null" then .ok false
      else if y.isNull text then .ok true
      else .error (.wrongValue outer text "null")
  | _ => .ok false

def readOption {α : Type} (d : Document) (y : Schema) (outer : List String)
    (read : Nat → Except Problem (Placed α)) (place : Nat) : Except Problem (Placed (Option α)) := do
  let f ← d.find place
  if ← isAbsent y outer f.item then return (none, place + 1)
  else
    let (a, place) ← read place
    return (some a, place)

/-- The name in a tag that starts with an exclamation mark. -/
def localTag? : Option String → Option String
  | none => none
  | some t =>
    match t.toList with
    | ['!'] => some "!"
    | '!' :: name => some (String.ofList name)
    | _ => none

/-- One of some variants: by the text of a scalar, or by a tag on nothing. -/
def readVariant {α : Type} (d : Document) (y : Schema) (outer path : List String)
    (variants : List α) (key : α → String) (place : Nat) : Except Problem (Placed α) := do
  let named (path : List String) (name : String) : Except Problem α :=
    match variants.find? fun a => key a == name with
    | some a => .ok a
    | none => .error (.unknownVariant path name (variants.map key))
  let f ← d.find place
  match f.item with
  | .scalar tag style text =>
    match localTag? tag with
    | none => return (← named path text, place + 1)
    | some name =>
      let a ← named outer name
      if style = .plain && y.isNone text then return (a, place + 1)
      else .error (.wrongValue path text "null")
  | .mappingStart tag | .sequenceStart tag =>
    match localTag? tag with
    | none => .error .malformed
    | some name =>
      let _ ← named outer name
      .error .malformed
  | _ => .error .malformed

end Document

end ProgramAnalysis.Yaml
