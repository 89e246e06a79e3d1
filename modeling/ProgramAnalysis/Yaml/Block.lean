import ProgramAnalysis.Yaml.Folding
/-!
Block scalars: a header, then lines that are indented more than what surrounds them. In a literal
scalar the lines stay, in a folded one they are joined.
-/
namespace ProgramAnalysis.Yaml

/-- What is kept of the breaks at the end. -/
inductive Chomp where
  | strip
  | clip
  | keep
deriving DecidableEq

structure TextLine where
  text : List Char
  /-- The break that ends the line; none at the end of the text. -/
  ending : List Char

def lines : List Char → List TextLine
  | [] => [⟨[], []⟩]
  | c :: cs =>
    if isBreak c then ⟨[], [c]⟩ :: lines cs
    else match lines cs with
      | [] => [⟨[c], []⟩]
      | l :: ls => { l with text := c :: l.text } :: ls

def unlines (ls : List TextLine) : List Char := ls.flatMap fun l => l.text ++ l.ending

namespace TextLine

def indent (l : TextLine) : Nat := (l.text.takeWhile (· == ' ')).length

def isMargin (l : TextLine) : Bool := l.text.all (· == ' ')

/-- A tab where indentation is due. -/
def hasTabMargin (l : TextLine) : Bool := l.text[l.indent]? == some '\t'

end TextLine

/-- The indentation of the lines that come next: that of the first one with text or of a deeper
empty one before it, and no less than `least`. -/
def deepest? (least : Nat) : List TextLine → Option Nat
  | [] => some least
  | l :: ls =>
    if l.isMargin && !l.ending.isEmpty then deepest? (max least l.indent) ls
    else if l.hasTabMargin then none
    else some (max least l.indent)

/-- A line of the scalar, its break, and the breaks of the empty lines after it. -/
structure BlockLine where
  text : List Char
  ending : List Char
  gap : List Char

structure BlockText where
  lead : List Char
  lines : List BlockLine
  rest : List TextLine

/-- The lines with the given indentation; none if a tab stands for a part of it. -/
def blockText? (indent : Nat) : List TextLine → Option BlockText
  | [] => some ⟨[], [], []⟩
  | l :: ls =>
    if l.isMargin && l.text.length ≤ indent && !l.ending.isEmpty then
      (blockText? indent ls).map fun b => { b with lead := l.ending ++ b.lead }
    else if indent ≤ l.indent && indent < l.text.length then
      (blockText? indent ls).map fun b =>
        ⟨[], ⟨l.text.drop indent, l.ending, b.lead⟩ :: b.lines, b.rest⟩
    else if l.indent < indent && l.hasTabMargin then none
    else some ⟨[], [], l :: ls⟩

/-- The breaks between two lines. Folding spares lines that start with a blank. -/
def between (folded : Bool) (l m : BlockLine) : List Char :=
  if folded && l.ending = ['\n'] && !startsBlank l.text && !startsBlank m.text then
    if l.gap.isEmpty then [' '] else l.gap
  else l.ending ++ l.gap

def joinLines (folded : Bool) : List BlockLine → List Char
  | [] => []
  | [l] => l.text
  | l :: m :: ls => l.text ++ between folded l m ++ joinLines folded (m :: ls)

def BlockText.text (b : BlockText) (folded : Bool) (chomp : Chomp) : List Char :=
  match b.lines.getLast? with
  | none => if chomp = .keep then b.lead else []
  | some l =>
    b.lead ++ joinLines folded b.lines ++
      match chomp with
      | .strip => []
      | .clip => l.ending
      | .keep => l.ending ++ l.gap

structure BlockHeader where
  chomp : Chomp
  increment : Option Nat

def chomp? (c : Char) : Option Chomp :=
  if c = '-' then some .strip else if c = '+' then some .keep else none

/-- The header after its indicator, in either order, and what follows it on the line. -/
def readHeader : List Char → Option (BlockHeader × List Char)
  | [] => some (⟨.clip, none⟩, [])
  | c :: cs =>
    match chomp? c, cs with
    | some chomp, d :: ds =>
      if d = '0' then none
      else if d.isDigit then some (⟨chomp, some (d.toNat - 48)⟩, ds)
      else some (⟨chomp, none⟩, d :: ds)
    | some chomp, [] => some (⟨chomp, none⟩, [])
    | none, _ =>
      if c = '0' then none
      else if c.isDigit then
        let increment := some (c.toNat - 48)
        match cs with
        | [] => some (⟨.clip, increment⟩, [])
        | d :: ds =>
          match chomp? d with
          | some chomp => some (⟨chomp, increment⟩, ds)
          | none => some (⟨.clip, increment⟩, d :: ds)
      else some (⟨.clip, none⟩, c :: cs)

/-- The scalar whose indicator was just read, inside a block that starts at column `parent`. -/
def readBlock (folded : Bool) (parent : Option Nat) (s : List Char) :
    Option (List Char × List Char) := do
  let (header, s) ← readHeader s
  let ls := lines (← endLine? s)
  let indent ← match header.increment with
    | some n => some (parent.getD 0 + n)
    | none => deepest? (max 1 ((parent.map (· + 1)).getD 0)) ls
  let body ← blockText? indent ls
  return (body.text folded header.chomp, unlines body.rest)

/-- A level of indentation of what is written. -/
def indentStep : Nat := 2

/-- The lines of a literal scalar; `fresh` at the start of a line, where the margin is due. -/
def literalBody (margin : Nat) : Bool → List Char → List Char
  | _, [] => []
  | fresh, c :: cs =>
    if isBreak c then c :: literalBody margin true cs
    else (if fresh then List.replicate margin ' ' else []) ++ c :: literalBody margin false cs

/-- The indentation is spelt out if the text starts with a space or a break, which would hide
it. The last break is kept by itself, and more than one, or one that is all of the text, by a
plus. -/
def literalHeader (s : List Char) : List Char :=
  let increment :=
    match s with
    | c :: _ => if c == ' ' || isBreak c then Nat.toDigits 10 indentStep else []
    | [] => []
  let chomp :=
    match s.reverse with
    | [] => ['-']
    | [c] => if isBreak c then ['+'] else ['-']
    | c :: d :: _ => if !isBreak c then ['-'] else if isBreak d then ['+'] else []
  '|' :: increment ++ chomp ++ ['\n']

/-- Whether a break ends the last line. -/
def endsInBreak (s : List Char) : Bool := s.getLast?.any isBreak

def writeLiteral (margin : Nat) (s : List Char) : List Char :=
  literalHeader s ++ literalBody margin true s

end ProgramAnalysis.Yaml
