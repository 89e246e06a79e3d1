import ProgramAnalysis.Handle
/-!
Sets of objects as they are kept between steps: a vector of objects, searched by halves and merged
from two positions. Nothing in the type keeps the vector ascending; the operations do.
-/
namespace ProgramAnalysis

structure StoredSet where
  elems : Array ObjId
deriving DecidableEq

namespace StoredSet

/-- Where an object stands in a vector of `n` objects, or else where it would go. -/
inductive Position (n : Nat) where
  | present (i : Fin n)
  | absent (i : Fin (n + 1))

def empty : StoredSet := ⟨#[]⟩

def singleton (o : ObjId) : StoredSet := ⟨#[o]⟩

def size (s : StoredSet) : Nat := s.elems.size

def isEmpty (s : StoredSet) : Bool := s.elems.isEmpty

def toList (s : StoredSet) : List ObjId := s.elems.toList

/-- A search for `o` in the window from `lo` up to `hi`. -/
def searchIn (xs : Array ObjId) (o : ObjId) (lo hi : Nat) (hlo : lo ≤ hi) (hhi : hi ≤ xs.size) :
    Position xs.size :=
  if h : lo < hi then
    let mid := lo + (hi - lo) / 2
    have hmid : mid < xs.size := by omega
    if xs[mid].index < o.index then searchIn xs o (mid + 1) hi (by omega) hhi
    else if o.index < xs[mid].index then searchIn xs o lo mid (by omega) (by omega)
    else .present ⟨mid, hmid⟩
  else .absent ⟨lo, by omega⟩
termination_by hi - lo

def search (s : StoredSet) (o : ObjId) : Position s.elems.size :=
  searchIn s.elems o 0 s.elems.size (Nat.zero_le _) (Nat.le_refl _)

def contains (s : StoredSet) (o : ObjId) : Bool :=
  match s.search o with
  | .present _ => true
  | .absent _ => false

/-- Also tells whether the object is new. -/
def insert (s : StoredSet) (o : ObjId) : Bool × StoredSet :=
  match s.search o with
  | .present _ => (false, s)
  | .absent i => (true, ⟨s.elems.insertIdx i.1 o (Nat.le_of_lt_succ i.2)⟩)

/-- What `xs` has from position `i` on and `ys` has not from position `j` on, put behind `out`. -/
def differenceFrom (xs ys : Array ObjId) (i j : Nat) (out : Array ObjId) : Array ObjId :=
  if hi : i < xs.size then
    if hj : j < ys.size then
      if xs[i].index < ys[j].index then differenceFrom xs ys (i + 1) j (out.push xs[i])
      else if xs[i].index = ys[j].index then differenceFrom xs ys (i + 1) (j + 1) out
      else differenceFrom xs ys i (j + 1) out
    else out ++ xs.extract i
  else out
termination_by (xs.size - i) + (ys.size - j)

def difference (s t : StoredSet) : StoredSet := ⟨differenceFrom s.elems t.elems 0 0 #[]⟩

/-- What `xs` has from position `i` on or `ys` has from position `j` on, put behind `out`. -/
def mergeFrom (xs ys : Array ObjId) (i j : Nat) (out : Array ObjId) : Array ObjId :=
  if h : i < xs.size ∧ j < ys.size then
    if xs[i].index < ys[j].index then mergeFrom xs ys (i + 1) j (out.push xs[i])
    else if ys[j].index < xs[i].index then mergeFrom xs ys i (j + 1) (out.push ys[j])
    else mergeFrom xs ys (i + 1) (j + 1) (out.push xs[i])
  else out ++ xs.extract i ++ ys.extract j
termination_by (xs.size - i) + (ys.size - j)

/-- `s` with what `t` has besides; also tells whether `s` grew. -/
def unionWith (s t : StoredSet) : Bool × StoredSet :=
  if t.isEmpty then (false, s)
  else if s.isEmpty then (true, t)
  else
    let merged := mergeFrom s.elems t.elems 0 0 #[]
    (s.elems.size < merged.size, ⟨merged⟩)

/-- A larger set is told apart by its size. -/
def isSubset (s t : StoredSet) : Bool := s.size ≤ t.size && s.elems.all t.contains

/-- Whether `xs` from position `i` on and `ys` from position `j` on have an object in common. -/
def meetsFrom (xs ys : Array ObjId) (i j : Nat) : Bool :=
  if h : i < xs.size ∧ j < ys.size then
    if xs[i].index < ys[j].index then meetsFrom xs ys (i + 1) j
    else if ys[j].index < xs[i].index then meetsFrom xs ys i (j + 1)
    else true
  else false
termination_by (xs.size - i) + (ys.size - j)

def intersects (s t : StoredSet) : Bool := meetsFrom s.elems t.elems 0 0

/-- Of equal neighbours one stays. -/
def dropRepeats : List ObjId → List ObjId
  | a :: b :: rest => if a = b then dropRepeats (b :: rest) else a :: dropRepeats (b :: rest)
  | xs => xs

def collect (xs : List ObjId) : StoredSet :=
  ⟨(dropRepeats (xs.mergeSort fun a b => a.index ≤ b.index)).toArray⟩

end StoredSet
end ProgramAnalysis
