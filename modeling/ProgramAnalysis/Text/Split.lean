/-!
Cutting text at a separator, at an end, and at blanks.
-/
namespace ProgramAnalysis.Text

/-- What follows `lead`, if the text starts with it. -/
def dropLead? : List Char → List Char → Option (List Char)
  | [], s => some s
  | _ :: _, [] => none
  | p :: ps, c :: cs => if p = c then dropLead? ps cs else none

/-- The text before and after the first occurrence of `sep`. -/
def cut? (sep : List Char) : List Char → Option (List Char × List Char)
  | [] => (dropLead? sep []).map ([], ·)
  | c :: cs =>
    match dropLead? sep (c :: cs) with
    | some rest => some ([], rest)
    | none => (cut? sep cs).map fun (before, after) => (c :: before, after)

def contains (sep s : List Char) : Bool := (cut? sep s).isSome

/-- What precedes the first occurrence of `sep`; the whole text if there is none. -/
def before (sep s : List Char) : List Char :=
  match cut? sep s with
  | some (b, _) => b
  | none => s

/-- The pieces between occurrences of one character: one more than it has occurrences. -/
def pieces (sep : Char) : List Char → List (List Char)
  | [] => [[]]
  | c :: cs =>
    if c = sep then [] :: pieces sep cs
    else match pieces sep cs with
      | p :: ps => (c :: p) :: ps
      | [] => [[c]]

/-- What follows the last occurrence of `sep`; the whole text if there is none. -/
def afterLast (sep : Char) (s : List Char) : List Char :=
  (s.reverse.takeWhile (· ≠ sep)).reverse

/-- The characters with the property White_Space. -/
def isBlank (c : Char) : Bool :=
  let n := c.toNat
  (9 ≤ n && n ≤ 13) || n == 0x20 || n == 0x85 || n == 0xA0 || n == 0x1680 ||
  (0x2000 ≤ n && n ≤ 0x200A) || n == 0x2028 || n == 0x2029 || n == 0x202F || n == 0x205F ||
  n == 0x3000

def dropBlankEnd (s : List Char) : List Char := (s.reverse.dropWhile isBlank).reverse

def trim (s : List Char) : List Char := dropBlankEnd (s.dropWhile isBlank)

theorem dropLead?_eq_some_iff {lead s rest : List Char} :
    dropLead? lead s = some rest ↔ s = lead ++ rest := by
  induction lead generalizing s with
  | nil => simp [dropLead?]
  | cons p ps ih =>
    cases s with
    | nil => simp [dropLead?]
    | cons c cs =>
      by_cases h : p = c
      · simp [dropLead?, h, ih]
      · simp [dropLead?, h, Ne.symm h]

theorem eq_append_of_cut? {sep s b a : List Char} (h : cut? sep s = some (b, a)) :
    s = b ++ sep ++ a := by
  induction s generalizing b a with
  | nil =>
    simp only [cut?, Option.map_eq_some_iff, Prod.mk.injEq] at h
    obtain ⟨r, h, rfl, rfl⟩ := h
    simpa using dropLead?_eq_some_iff.mp h
  | cons c cs ih =>
    simp only [cut?] at h
    split at h
    · next rest hr =>
      obtain ⟨rfl, rfl⟩ := by simpa using h
      simpa using dropLead?_eq_some_iff.mp hr
    · simp only [Option.map_eq_some_iff, Prod.exists, Prod.mk.injEq] at h
      obtain ⟨b', a', hc, rfl, rfl⟩ := h
      simp [ih hc]

end ProgramAnalysis.Text
