import ProgramAnalysis.Yaml.Token
/-!
Tags, whose bytes may be written by number, and the directives that name handles for them.
-/
namespace ProgramAnalysis.Yaml

/-- Characters of a tag that stand for themselves; commas and square brackets only where no
bracket can be meant. -/
def isTagChar (brackets : Bool) (c : Char) : Bool :=
  isWord c || [';', '/', '?', ':', '@', '&', '=', '+', '$', '.', '!', '~', '*', '\'', '(',
    ')'].contains c || (brackets && [',', '[', ']'].contains c)

/-- The byte that a percent sign and two hexadecimal digits write. -/
def readOctet : List Char → Option (Nat × List Char)
  | '%' :: a :: b :: cs => (Text.nat? 16 [a, b]).map fun n => (n, cs)
  | _ => none

/-- Further bytes of a character, six bits each. -/
def readOctets : Nat → Nat → List Char → Option (Nat × List Char)
  | 0, n, cs => some (n, cs)
  | count + 1, n, cs => do
    let (octet, cs) ← readOctet cs
    if octet / 64 = 2 then readOctets count (n * 64 + octet % 64) cs else none

/-- The first byte of a character: how many follow, and its share of the character. -/
def leadOctet? (octet : Nat) : Option (Nat × Nat) :=
  if octet < 0x80 then some (0, octet)
  else if octet / 32 = 6 then some (1, octet % 32)
  else if octet / 16 = 14 then some (2, octet % 16)
  else if octet / 8 = 30 then some (3, octet % 8)
  else none

/-- A character written by the bytes of its UTF-8 form. -/
def readPercent (s : List Char) : Option (Char × List Char) := do
  let (octet, cs) ← readOctet s
  let (count, n) ← leadOctet? octet
  let (n, cs) ← readOctets count n cs
  return ((charOf? n).getD '\uFFFD', cs)

theorem length_readOctet {s cs : List Char} {n : Nat} (h : readOctet s = some (n, cs)) :
    cs.length < s.length := by
  unfold readOctet at h
  split at h
  · simp only [Option.map_eq_some_iff, Prod.mk.injEq] at h
    obtain ⟨_, _, _, rfl⟩ := h
    simp only [List.length_cons]; omega
  · contradiction

theorem length_readOctets {count n m : Nat} {s cs : List Char}
    (h : readOctets count n s = some (m, cs)) : cs.length ≤ s.length := by
  induction count generalizing n s with
  | zero => simp only [readOctets, Option.some.injEq, Prod.mk.injEq] at h; simp [h.2]
  | succ count ih =>
    simp only [readOctets, Option.bind_eq_bind, Option.bind_eq_some_iff, Prod.exists] at h
    obtain ⟨octet, ds, ho, h⟩ := h
    split at h
    · exact Nat.le_trans (ih h) (Nat.le_of_lt (length_readOctet ho))
    · contradiction

theorem length_readPercent {s cs : List Char} {c : Char} (h : readPercent s = some (c, cs)) :
    cs.length < s.length := by
  simp only [readPercent, Option.bind_eq_bind, Option.bind_eq_some_iff, Prod.exists,
    Option.pure_def, Option.some.injEq, Prod.mk.injEq] at h
  obtain ⟨_, _, ho, _, _, _, _, _, hs, _, rfl⟩ := h
  exact Nat.lt_of_le_of_lt (length_readOctets hs) (length_readOctet ho)

/-- As much of a tag as there is. -/
def readTagText (brackets : Bool) : List Char → Option (List Char × List Char)
  | [] => some ([], [])
  | c :: cs =>
    if c = '%' then
      match _h : readPercent (c :: cs) with
      | none => none
      | some (d, rest) => (readTagText brackets rest).map fun (t, r) => (d :: t, r)
    else if isTagChar brackets c then (readTagText brackets cs).map fun (t, r) => (c :: t, r)
    else some ([], c :: cs)
termination_by s => s.length
decreasing_by
  · exact length_readPercent _h
  · simp

/-- Such a text with at least one character. -/
def readTagText1 (brackets : Bool) (s : List Char) : Option (String × List Char) := do
  let (text, rest) ← readTagText brackets s
  if text.isEmpty then none else return (String.ofList text, rest)

/-- An exclamation mark, then word characters and perhaps another mark. -/
def readHandle : List Char → Option (List Char × List Char)
  | '!' :: cs =>
    let word := cs.takeWhile isWord
    match cs.dropWhile isWord with
    | '!' :: rest => some ('!' :: word ++ ['!'], rest)
    | rest => some ('!' :: word, rest)
  | _ => none

/-- The tag between angle brackets, or after a handle of its own; else the local tag or the lone
mark, whose handle is empty. -/
def readTag (s : List Char) : Option (Token × List Char) :=
  match s with
  | '!' :: '<' :: cs => do
    let (suffix, rest) ← readTagText1 true cs
    match rest with
    | '>' :: rest => return (.tag "" suffix, rest)
    | _ => none
  | _ => do
    let (handle, rest) ← readHandle s
    if 1 < handle.length && handle.getLast? == some '!' then
      let (suffix, rest) ← readTagText1 false rest
      return (.tag (String.ofList handle) suffix, rest)
    else
      let (more, rest) ← readTagText false rest
      let suffix := handle.drop 1 ++ more
      return (if suffix.isEmpty then .tag "" "!" else .tag "!" (String.ofList suffix), rest)

/-! ## Directives -/

/-- At most nine digits. -/
def readNumber (s : List Char) : Option (Nat × List Char) := do
  let digits := s.takeWhile Char.isDigit
  if 9 < digits.length then none
  else return (← Text.nat? 10 digits, s.dropWhile Char.isDigit)

def readVersion (s : List Char) : Option (Token × List Char) := do
  let (major, rest) ← readNumber (s.dropWhile isBlank)
  match rest with
  | '.' :: rest =>
    let (minor, rest) ← readNumber rest
    return (.version major minor, rest)
  | _ => none

def readTagHandle (s : List Char) : Option (Token × List Char) := do
  let (handle, rest) ← readHandle (s.dropWhile isBlank)
  if handle != ['!'] && handle.getLast? != some '!' then none
  else if !startsBlank rest then none
  else
    let (stem, rest) ← readTagText1 true (rest.dropWhile isBlank)
    if atGap rest then return (.tagHandle (String.ofList handle) stem, rest) else none

/-- The directive whose percent sign was just read, to the end of its line. -/
def readDirective (s : List Char) : Option (Token × List Char) := do
  let (name, rest) ← readWord s
  if !atGap rest then none
  else
    let (token, rest) ←
      if name == "YAML" then readVersion rest
      else if name == "TAG" then readTagHandle rest
      else none
    return (token, ← endLine? rest)

end ProgramAnalysis.Yaml
