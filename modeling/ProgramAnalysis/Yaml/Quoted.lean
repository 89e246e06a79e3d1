import ProgramAnalysis.Text.Digits
import ProgramAnalysis.Yaml.Folding
/-!
Quoted scalars. Between single quotes only the quote itself is special and written twice; between
double quotes a backslash starts an escape.
-/
namespace ProgramAnalysis.Yaml

/-- Text in front of what a reader yields. -/
def ahead (s : List Char) : Option (List Char × List Char) → Option (List Char × List Char) :=
  Option.map fun (t, rest) => (s ++ t, rest)

/-- The scalar whose opening quote was just read, and what follows its closing quote. -/
def readSingle (gap : Gap) : List Char → Option (List Char × List Char)
  | [] => none
  | '\'' :: '\'' :: cs => ahead (gap.text ++ ['\'']) (readSingle .empty cs)
  | '\'' :: cs => some (gap.text, cs)
  | c :: cs =>
    if isGap c then
      if isBreak c && atMarker cs then none else readSingle (gap.add c) cs
    else ahead (gap.text ++ [c]) (readSingle .empty cs)

/-- Letters of the escapes for single characters. -/
def escapes : List (Char × Char) :=
  [('0', '\x00'), ('a', '\x07'), ('b', '\x08'), ('t', '\t'), ('\t', '\t'), ('n', '\n'),
    ('v', '\x0B'), ('f', '\x0C'), ('r', '\r'), ('e', '\x1B'), (' ', ' '), ('"', '"'),
    ('/', '/'), ('\\', '\\'), ('N', '\u0085'), ('_', '\u00A0'), ('L', '\u2028'),
    ('P', '\u2029')]

/-- How many hexadecimal digits a numeric escape has besides its first. -/
def escapeDigits? (c : Char) : Option Nat :=
  if c = 'x' then some 1 else if c = 'u' then some 3 else if c = 'U' then some 7 else none

def charOf? (n : Nat) : Option Char := if n.isValidChar then some (Char.ofNat n) else none

/-- The scalar whose opening quote was just read, and what follows its closing quote. Within a
numeric escape `code` has the number of digits after the next one, and what those before it
write. -/
def readDouble (gap : Gap) : Option (Nat × Nat) → List Char → Option (List Char × List Char)
  | _, [] => none
  | some (more, n), c :: cs =>
    match Text.digit? 16 c with
    | none => none
    | some d =>
      if more = 0 then
        match charOf? (n * 16 + d) with
        | none => none
        | some e => ahead [e] (readDouble .empty none cs)
      else readDouble .empty (some (more - 1, n * 16 + d)) cs
  | none, '"' :: cs => some (gap.text, cs)
  | none, '\\' :: c :: cs =>
    if isBreak c then
      if atMarker cs then none else ahead gap.text (readDouble (.joined []) none cs)
    else
      match escapes.lookup c with
      | some d => ahead (gap.text ++ [d]) (readDouble .empty none cs)
      | none =>
        match escapeDigits? c with
        | none => none
        | some more => ahead gap.text (readDouble .empty (some (more, 0)) cs)
  | none, c :: cs =>
    if c = '\\' then none
    else if isGap c then
      if isBreak c && atMarker cs then none else readDouble (gap.add c) none cs
    else ahead (gap.text ++ [c]) (readDouble .empty none cs)

def spaces (n : Nat) : List Char := List.replicate n ' '

/-- The scalar between single quotes; `fresh` at the start of a line, where the margin is due. A
line feed is written twice, so that it is not folded. -/
def singleBody (margin : Nat) : Bool → List Char → List Char
  | fresh, [] => if fresh then spaces margin else []
  | fresh, c :: cs =>
    if isBreak c then
      (if c = '\n' && !fresh then ['\n'] else []) ++ c :: singleBody margin true cs
    else
      (if fresh then spaces margin else []) ++ (if c = '\'' then ['\'', '\''] else [c]) ++
        singleBody margin false cs

def writeSingle (margin : Nat) (s : List Char) : List Char :=
  '\'' :: singleBody margin false s ++ ['\'']

/-- What is written as itself, between quotes or without them. -/
def isPrintable (c : Char) : Bool :=
  let n := c.toNat
  n == 0xA || (0x20 ≤ n && n ≤ 0x7E) || (0xA0 ≤ n && n ≤ 0xFFFD && n != 0xFEFF) || 0x10000 ≤ n

def writeEscape (c : Char) : List Char :=
  match escapes.find? fun e => e.2 == c with
  | some e => ['\\', e.1]
  | none =>
    if c.toNat < 0x100 then '\\' :: 'x' :: Text.hexDigits 2 c.toNat
    else if c.toNat < 0x10000 then '\\' :: 'u' :: Text.hexDigits 4 c.toNat
    else '\\' :: 'U' :: Text.hexDigits 8 c.toNat

def writeDouble (s : List Char) : List Char :=
  '"' :: (s.flatMap fun c =>
    if isPrintable c && !isBreak c && c != '"' && c != '\\' then [c] else writeEscape c) ++ ['"']

end ProgramAnalysis.Yaml
