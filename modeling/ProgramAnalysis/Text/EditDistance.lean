/-!
Edit distance on characters, one row of the distance table at a time, and the candidate nearest
to a word.
-/
namespace ProgramAnalysis.Text

/-- The cells of the next row after its first: `diag` and `ups` are the cells of the row above,
`left` is the cell just computed. -/
def extendRow (c : Char) : List Char → Nat → List Nat → Nat → List Nat
  | d :: ds, diag, up :: ups, left =>
    let cell := min (min (up + 1) (left + 1)) (diag + if c = d then 0 else 1)
    cell :: extendRow c ds up ups cell
  | _, _, _, _ => []

/-- The row for one more character of the first word. -/
def nextRow (t : List Char) (row : List Nat) (c : Char) : List Nat :=
  match row with
  | [] => []
  | corner :: ups => (corner + 1) :: extendRow c t corner ups (corner + 1)

/-- Least number of insertions, deletions and substitutions of one character from `s` to `t`. -/
def editDistance (s t : List Char) : Nat :=
  ((s.foldl (nextRow t) (List.range (t.length + 1))).getLast?).getD 0

/-- The earliest of the candidates at the least distance. -/
def nearest? (word : String) : List String → Option String
  | [] => none
  | c :: cs =>
    some (cs.foldl (fun best d =>
      if editDistance word.toList d.toList < editDistance word.toList best.toList then d
      else best) c)

end ProgramAnalysis.Text
