import ProgramAnalysis.Yaml.Folding
/-!
Plain scalars: where one ends when it is read, and which texts can be written as one.
-/
namespace ProgramAnalysis.Yaml

/-- How far a plain scalar reaches. -/
structure PlainScalar where
  text : List Char
  /-- Whether a line ended between the scalar and what follows. -/
  broken : Bool
  rest : List Char

/-- The scalar that starts here, without the blanks after it. Outside brackets it takes in lines
that are indented by `indent` and more. -/
def readPlain (inFlow : Bool) (indent : Nat) (column : Nat) (gap : Gap) :
    List Char → Option PlainScalar
  | [] => some ⟨[], gap.isBroken, []⟩
  | c :: cs =>
    let stop : Option PlainScalar := some ⟨[], gap.isBroken, c :: cs⟩
    if isBreak c then readPlain inFlow indent 0 (gap.add c) cs
    else if isBlank c then
      if gap.isBroken && column < indent && c == '\t' then none
      else readPlain inFlow indent (column + 1) (gap.add c) cs
    else if !inFlow && gap.isBroken && column < indent then stop
    else if column = 0 && atMarker (c :: cs) then stop
    else if c = '#' && !gap.isEmpty then stop
    else if inFlow && c = ':' && (cs.head?.any fun d => isFlowIndicator d || d == '?') then none
    else if c = ':' && atGap cs then stop
    else if inFlow && isFlowIndicator c then stop
    else (readPlain inFlow indent (column + 1) .empty cs).map fun p =>
      { p with text := gap.text ++ c :: p.text }

/-- Whether a plain scalar can start here. -/
def startsPlain (inFlow : Bool) : List Char → Bool
  | [] => false
  | c :: cs =>
    if isGap c || isIndicator c then false
    else if c = '-' then !atGap cs
    else if c = '?' ∨ c = ':' then !inFlow && !atGap cs
    else true

/-- Whether two neighbours have the two properties. -/
def anyPair (p q : Char → Bool) : List Char → Bool
  | c :: d :: cs => (p c && q d) || anyPair p q (d :: cs)
  | _ => false

/-- Whether a colon ends a word, as it does between a key and its value. -/
def endsKey : List Char → Bool
  | [] => false
  | c :: cs => (c == ':' && atGap cs) || endsKey cs

/-- Whether the text starts with the dashes or dots of a marker, whatever follows them. -/
def startsMarker : List Char → Bool
  | '-' :: '-' :: '-' :: _ => true
  | '.' :: '.' :: '.' :: _ => true
  | _ => false

/-- Whether text without breaks and unprintable characters stays itself when it is written
plainly outside brackets. -/
def fitsPlain (s : List Char) : Bool :=
  startsPlain false s && !startsMarker s && !endsKey s && s.getLast? != some ' ' &&
    !anyPair isGap (· == '#') s

end ProgramAnalysis.Yaml
