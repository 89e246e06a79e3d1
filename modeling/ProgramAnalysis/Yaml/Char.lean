/-!
Classes of the characters of a YAML stream.
-/
namespace ProgramAnalysis.Yaml

/-- What a stream may hold. -/
def isAllowed (c : Char) : Bool :=
  let n := c.toNat
  n == 0x9 || n == 0xA || n == 0xD || (0x20 ≤ n && n ≤ 0x7E) || n == 0x85 ||
  (0xA0 ≤ n && n ≤ 0xFFFD) || 0x10000 ≤ n

def isBlank (c : Char) : Bool := c == ' ' || c == '\t'

/-- Line breaks, once the other spellings of the line feed are replaced by it. -/
def isBreak (c : Char) : Bool := c == '\n' || c == '\u2028' || c == '\u2029'

def isGap (c : Char) : Bool := isBlank c || isBreak c

/-- Characters of anchors, directives and tag handles. -/
def isWord (c : Char) : Bool := c.isAlphanum || c == '_' || c == '-'

/-- Brackets and the comma, which end a plain scalar inside brackets. -/
def isFlowIndicator (c : Char) : Bool :=
  c == ',' || c == '[' || c == ']' || c == '{' || c == '}'

/-- Characters that start no plain scalar, whatever follows them. -/
def isIndicator (c : Char) : Bool :=
  isFlowIndicator c || c == '#' || c == '&' || c == '*' || c == '!' || c == '|' || c == '>' ||
  c == '\'' || c == '"' || c == '%' || c == '@' || c == '\x60'

/-- One spelling for the breaks that count as a line feed. -/
def unifyBreaks : List Char → List Char
  | [] => []
  | '\r' :: '\n' :: cs => '\n' :: unifyBreaks cs
  | c :: cs => (if c = '\r' ∨ c = '\u0085' then '\n' else c) :: unifyBreaks cs

/-- Whether a word ends here: the text does, or a blank or a break follows. -/
def atGap : List Char → Bool
  | [] => true
  | c :: _ => isGap c

/-- Whether a line that starts here begins or ends a document. -/
def atMarker : List Char → Bool
  | '-' :: '-' :: '-' :: cs => atGap cs
  | '.' :: '.' :: '.' :: cs => atGap cs
  | _ => false

def startsBlank : List Char → Bool
  | c :: _ => isBlank c
  | [] => false

/-- What follows the rest of a line that holds no more than blanks and a comment. -/
def endLine? (s : List Char) : Option (List Char) :=
  let s := s.dropWhile isBlank
  let s := if s.head? = some '#' then s.dropWhile fun c => !isBreak c else s
  match s with
  | [] => some []
  | c :: cs => if isBreak c then some cs else none

theorem unifyBreaks_of_plain {s : List Char} (h : ∀ c ∈ s, c ≠ '\r' ∧ c ≠ '\u0085') :
    unifyBreaks s = s := by
  induction s with
  | nil => rfl
  | cons c cs ih =>
    have hc := h c (by simp)
    have hcs := ih fun d hd => h d (by simp [hd])
    rw [unifyBreaks.eq_def]
    split
    · contradiction
    · next heq => exact absurd (List.cons.inj heq).1 hc.1
    · next d ds _ heq =>
      obtain ⟨rfl, rfl⟩ := List.cons.inj heq
      simp [hc.1, hc.2, hcs]

end ProgramAnalysis.Yaml
