import ProgramAnalysis.Text.Digits
import ProgramAnalysis.Text.Split
/-!
What a plain scalar stands for when it does not stand for its text: null, a truth value or a
number.
-/
namespace ProgramAnalysis.Yaml

def nulls : List String := ["null", "Null", "NULL", "~"]

def bool? (s : String) : Option Bool :=
  if ["true", "True", "TRUE"].contains s then some true
  else if ["false", "False", "FALSE"].contains s then some false
  else none

def dropSign (signs : List Char) : List Char → List Char
  | [] => []
  | c :: cs => if signs.contains c then cs else c :: cs

/-- Digits with a zero in front, which are no number. -/
def isPadded (s : List Char) : Bool :=
  match dropSign ['+', '-'] s with
  | '0' :: d :: ds => (d :: ds).all Char.isDigit
  | _ => false

/-- A number without sign: decimal, or in the base that follows a zero. -/
def magnitude? (s : List Char) : Option Nat :=
  match s with
  | '0' :: 'x' :: ds => Text.nat? 16 ds
  | '0' :: 'o' :: ds => Text.nat? 8 ds
  | '0' :: 'b' :: ds => Text.nat? 2 ds
  | _ => if isPadded s then none else Text.nat? 10 s

def unsigned? (s : List Char) : Option Nat := magnitude? (dropSign ['+'] s)

/-- Integers of 128 bits, with or without sign. -/
def isInteger (s : List Char) : Bool :=
  (unsigned? s).any (· < 1 <<< 128) ||
    match s with
    | '-' :: ds => (magnitude? ds).any (· ≤ 1 <<< 127)
    | _ => false

/-- The digits, the power of ten to multiply them by. -/
def decimal? (s : List Char) : Option (Nat × Int) := do
  let whole := s.takeWhile Char.isDigit
  let s := s.dropWhile Char.isDigit
  let (fraction, s) := match s with
    | '.' :: s => (s.takeWhile Char.isDigit, s.dropWhile Char.isDigit)
    | _ => ([], s)
  let digits ← Text.nat? 10 (whole ++ fraction)
  let exponent ← match s with
    | [] => some 0
    | e :: s =>
      if e = 'e' ∨ e = 'E' then
        match s with
        | '-' :: ds => (Text.nat? 10 ds).map fun n => -(n : Int)
        | _ => (Text.nat? 10 (dropSign ['+'] s)).map Int.ofNat
      else none
  return (digits, exponent - fraction.length)

/-- Half a unit of the last place above the greatest number of 64-bit floating point: from here
on a number is rounded to infinity. -/
def overflow : Nat := (1 <<< 1024) - (1 <<< 970)

/-- Whether digits times a power of ten are rounded to a finite number. Exponents far out of
range are settled by the count of digits. -/
def isFinite (digits : Nat) (exponent : Int) : Bool :=
  let size : Int := (Nat.toDigits 10 digits).length + exponent
  if digits = 0 then true
  else if 400 < size then false
  else if size < 300 then true
  else if 0 ≤ exponent then digits * Nat.pow 10 exponent.toNat < overflow
  else digits < overflow * Nat.pow 10 (-exponent).toNat

def isFloat (s : List Char) : Bool :=
  [".inf", ".Inf", ".INF"].any (fun t => dropSign ['+', '-'] s == t.toList) ||
  [".nan", ".NaN", ".NAN"].any (fun t => s == t.toList) ||
  (decimal? (dropSign ['+', '-'] s)).any fun (digits, exponent) => isFinite digits exponent

/-- Whether a plain scalar stands for its text alone. -/
def isText (s : String) : Bool :=
  !(s.isEmpty || nulls.contains s || (bool? s).isSome || isInteger s.toList ||
    isPadded s.toList || isFloat s.toList)

/-- What plain scalars stand for besides their text, where null, a truth value or a number may
stand. -/
structure Schema where
  isNull : String → Bool
  bool? : String → Option Bool
  number? : String → Option Nat

namespace Schema

/-- Whether a plain scalar stands for nothing. -/
def isNone (y : Schema) (s : String) : Bool := s.isEmpty || y.isNull s

def standard : Schema where
  isNull := nulls.contains
  bool? := Yaml.bool?
  number? s := unsigned? s.toList

end Schema

end ProgramAnalysis.Yaml
