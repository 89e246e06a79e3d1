import ProgramAnalysis.Yaml.Tag
/-!
From text to tokens. A key is recognised by the colon after it, so that the tokens for a key and
for the start of its block are put in front of what was read since the key began; and until then
nothing from there on is certain.
-/
namespace ProgramAnalysis.Yaml

structure Position where
  line : Nat
  column : Nat

namespace Position

def after (p : Position) (c : Char) : Position :=
  if isBreak c then ⟨p.line + 1, 0⟩ else ⟨p.line, p.column + 1⟩

def past (p : Position) (s : List Char) : Position := s.foldl after p

end Position

/-- A place where a key may have begun, with the number of tokens before it. -/
structure PendingKey where
  token : Nat
  /-- Nothing else than a key can stand there. -/
  required : Bool
  start : Position

/-- A key and its colon are on one line and no farther apart than this. -/
def maxKeyLength : Nat := 1024

def PendingKey.isStale (k : PendingKey) (p : Position) : Bool :=
  k.start.line < p.line || k.start.column + maxKeyLength < p.column

structure Lexer where
  rest : List Char
  position : Position
  tokens : Array Token
  /-- Columns of the open blocks, innermost first. -/
  blocks : List Nat
  key : Option PendingKey
  /-- The pending keys around each open bracket, innermost first. -/
  outerKeys : List (Option PendingKey)
  keyAllowed : Bool

namespace Lexer

/-- A byte order mark in front is passed over. -/
def start (s : List Char) : Lexer :=
  let l : Lexer := ⟨s, ⟨0, 0⟩, #[], [], none, [], true⟩
  match s with
  | '\uFEFF' :: cs => { l with rest := cs, position := ⟨0, 1⟩ }
  | _ => l

def inFlow (l : Lexer) : Bool := !l.outerKeys.isEmpty

/-- Goes on at `rest`, which is an end of the rest. -/
def moveTo (l : Lexer) (rest : List Char) : Lexer :=
  let passed := l.rest.take (l.rest.length - rest.length)
  { l with rest, position := l.position.past passed }

def skip (l : Lexer) (n : Nat) : Lexer := l.moveTo (l.rest.drop n)

def emit (l : Lexer) (t : Token) : Lexer := { l with tokens := l.tokens.push t }

def allowKey (l : Lexer) (allowed : Bool) : Lexer := { l with keyAllowed := allowed }

/-! ## Gaps between tokens -/

/-- Passes over blanks, comments and breaks. A tab is no indentation: it is passed over only where
no key may begin. Outside brackets a key may begin after a break. -/
def skipGap (inFlow : Bool) : Bool → Bool → List Char → Bool × List Char
  | allowed, _, [] => (allowed, [])
  | allowed, inComment, c :: cs =>
    if isBreak c then skipGap inFlow (allowed || !inFlow) false cs
    else if inComment || c = ' ' || (c = '\t' && (inFlow || !allowed)) then
      skipGap inFlow allowed inComment cs
    else if c = '#' then skipGap inFlow allowed true cs
    else (allowed, c :: cs)

def toToken (l : Lexer) : Lexer :=
  let (allowed, rest) := skipGap l.inFlow l.keyAllowed false l.rest
  (l.moveTo rest).allowKey allowed

/-! ## Pending keys -/

/-- No colon can follow any more; an error if one had to. -/
def dropIf (stale : PendingKey → Bool) : Option PendingKey → Option (Option PendingKey)
  | none => some none
  | some k => if stale k then if k.required then none else some none else some (some k)

def dropStale (l : Lexer) : Option Lexer := do
  let stale := fun k : PendingKey => k.isStale l.position
  return { l with
    key := ← dropIf stale l.key
    outerKeys := ← l.outerKeys.mapM (dropIf stale) }

def dropKey (l : Lexer) : Option Lexer := do
  return { l with key := ← dropIf (fun _ => true) l.key }

/-- What comes next may be a key. -/
def markKey (l : Lexer) : Option Lexer :=
  if l.keyAllowed then do
    let required := !l.inFlow && l.blocks.head? == some l.position.column
    let l ← l.dropKey
    return { l with key := some ⟨l.tokens.size, required, l.position⟩ }
  else some l

/-! ## Blocks -/

/-- A block of deeper indentation begins, with its token at place `i`. -/
def openBlock (l : Lexer) (column i : Nat) (t : Token) : Lexer :=
  if !l.inFlow && l.blocks.head?.all (· < column) then
    { l with blocks := column :: l.blocks, tokens := l.tokens.insertIdxIfInBounds i t }
  else l

/-- Ends the blocks that hold. -/
def closeBlocksIf (l : Lexer) (ends : Nat → Bool) : Lexer :=
  if l.inFlow then l
  else
    let closed := l.blocks.takeWhile ends
    { l with
      blocks := l.blocks.dropWhile ends
      tokens := l.tokens ++ closed.map fun _ => Token.blockEnd }

def closeBlocks (l : Lexer) : Lexer := l.closeBlocksIf fun _ => true

/-! ## Tokens -/

def readEnd (l : Lexer) : Option Lexer := do
  let l ← l.closeBlocks.dropKey
  return (l.allowKey false).emit .streamEnd

def readDirectiveLine (l : Lexer) : Option Lexer := do
  let l ← l.closeBlocks.dropKey
  let (token, rest) ← readDirective (l.rest.drop 1)
  return ((l.allowKey false).moveTo rest).emit token

def readMarker (l : Lexer) (t : Token) : Option Lexer := do
  let l ← l.closeBlocks.dropKey
  return ((l.allowKey false).skip 3).emit t

def openFlow (l : Lexer) (t : Token) : Option Lexer := do
  let l ← l.markKey
  let l := { l with key := none, outerKeys := l.key :: l.outerKeys }
  return ((l.allowKey true).skip 1).emit t

def closeFlow (l : Lexer) (t : Token) : Option Lexer := do
  let l ← l.dropKey
  let l := match l.outerKeys with
    | [] => l
    | k :: ks => { l with key := k, outerKeys := ks }
  return ((l.allowKey false).skip 1).emit t

def readFlowEntry (l : Lexer) : Option Lexer := do
  let l ← l.dropKey
  return ((l.allowKey true).skip 1).emit .flowEntry

/-- The block that an indicator opens outside brackets, if its column is deep enough; an error
where no key may begin. -/
def openAt (l : Lexer) (t : Token) : Option Lexer :=
  if l.inFlow then some l
  else if l.keyAllowed then some (l.openBlock l.position.column l.tokens.size t)
  else none

def readBlockEntry (l : Lexer) : Option Lexer := do
  let l ← (← l.openAt .blockSequenceStart).dropKey
  return ((l.allowKey true).skip 1).emit .blockEntry

def readKey (l : Lexer) : Option Lexer := do
  let l ← (← l.openAt .blockMappingStart).dropKey
  return ((l.allowKey !l.inFlow).skip 1).emit .key

/-- The colon after a pending key, or alone. -/
def readValue (l : Lexer) : Option Lexer := do
  let l ← match l.key with
    | some k =>
      let l := { l with key := none, tokens := l.tokens.insertIdxIfInBounds k.token .key }
      some ((l.openBlock k.start.column k.token .blockMappingStart).allowKey false)
    | none => (l.openAt .blockMappingStart).map fun l => l.allowKey !l.inFlow
  return (l.skip 1).emit .value

/-- A token that may be a key or belong to one. -/
def readNode (l : Lexer) (read : List Char → Option (Token × List Char)) : Option Lexer := do
  let l ← l.markKey
  let (token, rest) ← read l.rest
  return ((l.allowKey false).moveTo rest).emit token

def readReference (s : List Char) : Option (Token × List Char) :=
  (readName (s.drop 1)).map fun (name, rest) => (.reference name, rest)

def readAnchor (s : List Char) : Option (Token × List Char) :=
  (readName (s.drop 1)).map fun (name, rest) => (.anchor name, rest)

/-- Inside brackets a comma may follow a tag at once. -/
def readTagToken (inFlow : Bool) (s : List Char) : Option (Token × List Char) := do
  let (token, rest) ← readTag s
  if atGap rest || (inFlow && rest.head? == some ',') then return (token, rest) else none

def readQuoted (single : Bool) (s : List Char) : Option (Token × List Char) := do
  let (text, rest) ←
    if single then readSingle .empty (s.drop 1) else readDouble .empty none (s.drop 1)
  return (.scalar (if single then .singleQuoted else .doubleQuoted) (String.ofList text), rest)

def readBlockScalar (l : Lexer) (folded : Bool) : Option Lexer := do
  let l ← l.dropKey
  let (text, rest) ← readBlock folded l.blocks.head? (l.rest.drop 1)
  let style := if folded then Style.folded else .literal
  return ((l.allowKey true).moveTo rest).emit (.scalar style (String.ofList text))

def readPlainScalar (l : Lexer) : Option Lexer := do
  let l ← l.markKey
  let indent := (l.blocks.head?.map (· + 1)).getD 0
  let p ← readPlain l.inFlow indent l.position.column .empty l.rest
  return ((l.allowKey p.broken).moveTo p.rest).emit (.scalar .plain (String.ofList p.text))

/-- The token that starts at the first character of the rest. -/
def readToken (l : Lexer) (c : Char) (cs : List Char) : Option Lexer :=
  let atStart := l.position.column = 0
  if atStart && c = '%' then l.readDirectiveLine
  else if atStart && atMarker (c :: cs) then
    l.readMarker (if c = '-' then .documentStart else .documentEnd)
  else if c = '[' then l.openFlow .flowSequenceStart
  else if c = '{' then l.openFlow .flowMappingStart
  else if c = ']' then l.closeFlow .flowSequenceEnd
  else if c = '}' then l.closeFlow .flowMappingEnd
  else if c = ',' then l.readFlowEntry
  else if c = '-' && atGap cs then l.readBlockEntry
  else if c = '?' && (l.inFlow || atGap cs) then l.readKey
  else if c = ':' && (l.inFlow || atGap cs) then l.readValue
  else if c = '*' then l.readNode readReference
  else if c = '&' then l.readNode readAnchor
  else if c = '!' then l.readNode (readTagToken l.inFlow)
  else if c = '|' && !l.inFlow then l.readBlockScalar false
  else if c = '>' && !l.inFlow then l.readBlockScalar true
  else if c = '\'' then l.readNode (readQuoted true)
  else if c = '"' then l.readNode (readQuoted false)
  else if startsPlain l.inFlow (c :: cs) then l.readPlainScalar
  else none

/-- One more token, with those that its place brings about. -/
def next (l : Lexer) : Option Lexer := do
  let l ← l.toToken.dropStale
  let l := l.closeBlocksIf fun column => l.position.column < column
  match l.rest with
  | [] => l.readEnd
  | c :: cs => l.readToken c cs

/-- The tokens before the first place where a key may still begin. -/
def certain (l : Lexer) : List Token :=
  let l := l.dropStale.getD l
  let limit := (l.key :: l.outerKeys).foldl (fun n k => (k.map fun k => min n k.token).getD n)
    l.tokens.size
  l.tokens.toList.take limit

/-- The tokens up to the end of the stream, which is one, or up to an error. Each step but the
last reads a character, so that there are no more steps than characters and one. -/
def run : Nat → Lexer → List Token
  | 0, l => l.certain
  | fuel + 1, l =>
    match l.next with
    | none => l.certain
    | some l => if l.tokens.back? == some .streamEnd then l.tokens.toList else run fuel l

end Lexer

/-- The tokens of a text; they end with the end of the stream exactly if there is no error. -/
def tokens (s : List Char) : List Token :=
  if s.all isAllowed then
    let l := Lexer.start (unifyBreaks s)
    l.run (l.rest.length + 1)
  else []

end ProgramAnalysis.Yaml
