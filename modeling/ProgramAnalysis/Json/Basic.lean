/-!
JSON values, how records and tagged unions read from them, and their indented text.
-/
namespace ProgramAnalysis

/-- Numbers written with a fraction are kept apart from integers. An object keeps its members in
order. -/
inductive Json where
  | null
  | bool (b : Bool)
  | int (n : Int)
  | decimal (mantissa : Int) (places : Nat)
  | str (s : String)
  | arr (items : List Json)
  | obj (members : List (String × Json))
deriving Inhabited

namespace Json

def nat (n : Nat) : Json := .int n

def option {α : Type} (f : α → Json) : Option α → Json
  | none => .null
  | some a => f a

def tagged (tag : String) (content : Json) : Json := .obj [(tag, content)]

/-! ## Reading -/

def bool? : Json → Option Bool
  | .bool b => some b
  | _ => none

def str? : Json → Option String
  | .str s => some s
  | _ => none

def arr? : Json → Option (List Json)
  | .arr items => some items
  | _ => none

def obj? : Json → Option (List (String × Json))
  | .obj members => some members
  | _ => none

/-- A non-negative integer below `bound`. -/
def natBelow? (bound : Nat) : Json → Option Nat
  | .int n => if 0 ≤ n && n < bound then some n.toNat else none
  | _ => none

def int32? : Json → Option Int32
  | .int n => if -2147483648 ≤ n && n < 2147483648 then some (Int32.ofInt n) else none
  | _ => none

/-- Absent and null members are both `none`. -/
def option? {α : Type} (read? : Json → Option α) : Option Json → Option (Option α)
  | none | some .null => some none
  | some j => (read? j).map some

def list? {α : Type} (read? : Json → Option α) (j : Json) : Option (List α) :=
  j.arr?.bind fun items => items.mapM read?

/-- The tag of a union's case, with the content if the case is written as an object. -/
def case? : Json → Option (String × Option Json)
  | .str tag => some (tag, none)
  | .obj [(tag, content)] => some (tag, some content)
  | _ => none

/-- A case without content is its tag, or its tag over null. -/
def bareCase? (j : Json) : Option String :=
  match j.case? with
  | some (tag, none) | some (tag, some .null) => some tag
  | _ => none

/-- The named members of an object; others are ignored. -/
def members? (names : List String) : Json → Option (List (Option Json))
  | .obj members => some (names.map fun n => members.lookup n)
  | _ => none

/-- The fields of a record: by name from an object, by position from an array of that length. -/
def record? (names : List String) : Json → Option (List (Option Json))
  | .arr items => if items.length = names.length then some (items.map some) else none
  | j => j.members? names

/-! ## Text -/

def hexDigit (n : Nat) : Char := Nat.digitChar (n % 16)

/-- Control characters without a short escape are written with four hexadecimal digits. -/
def escapeChar (c : Char) : String :=
  if c = '"' then "\\\""
  else if c = '\\' then "\\\\"
  else if c = '\n' then "\\n"
  else if c = '\r' then "\\r"
  else if c = '\t' then "\\t"
  else if c.toNat = 8 then "\\b"
  else if c.toNat = 12 then "\\f"
  else if c.toNat < 32 then
    "\\u00" ++ String.ofList [hexDigit (c.toNat / 16), hexDigit c.toNat]
  else String.singleton c

def quote (s : String) : String :=
  "\"" ++ String.join (s.toList.map escapeChar) ++ "\""

def indent (depth : Nat) : String := String.ofList (List.replicate (2 * depth) ' ')

/-- A number with `places` digits after the point. -/
def decimalText (mantissa : Int) (places : Nat) : String :=
  let digits := toString mantissa.natAbs
  let padded := String.ofList (List.replicate (places + 1 - digits.length) '0') ++ digits
  let whole := padded.toList.take (padded.length - places)
  let rest := padded.toList.drop (padded.length - places)
  (if mantissa < 0 then "-" else "") ++ String.ofList whole ++ "." ++ String.ofList rest

mutual

/-- Two spaces a level, one item a line; empty containers stay on one line. -/
def pretty (depth : Nat) : Json → String
  | .null => "null"
  | .bool b => if b then "true" else "false"
  | .int n => toString n
  | .decimal mantissa places => decimalText mantissa places
  | .str s => quote s
  | .arr [] => "[]"
  | .arr (j :: rest) =>
    "[\n" ++ indent (depth + 1) ++ pretty (depth + 1) j ++ prettyItems (depth + 1) rest ++
      "\n" ++ indent depth ++ "]"
  | .obj [] => "\x7b\x7d"
  | .obj ((key, j) :: rest) =>
    "\x7b\n" ++ indent (depth + 1) ++ quote key ++ ": " ++ pretty (depth + 1) j ++
      prettyMembers (depth + 1) rest ++ "\n" ++ indent depth ++ "\x7d"

def prettyItems (depth : Nat) : List Json → String
  | [] => ""
  | j :: rest => ",\n" ++ indent depth ++ pretty depth j ++ prettyItems depth rest

def prettyMembers (depth : Nat) : List (String × Json) → String
  | [] => ""
  | (key, j) :: rest =>
    ",\n" ++ indent depth ++ quote key ++ ": " ++ pretty depth j ++ prettyMembers depth rest

end

end Json
end ProgramAnalysis
