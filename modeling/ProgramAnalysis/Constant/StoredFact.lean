import ProgramAnalysis.Constant.Fact
/-!
Facts as they are kept between steps: a map from variables to values, read as `undef` where it has
no entry. Nothing in the type keeps an entry from being `undef`; the operations do.
-/
namespace ProgramAnalysis

structure StoredFact where
  values : HandleMap VarId Value
deriving DecidableEq

namespace StoredFact

def empty : StoredFact := ⟨.empty⟩

def get (s : StoredFact) (v : VarId) : Value :=
  match s.values.get? v with
  | none => .undef
  | some x => x

/-- Also tells whether the stored value changed. -/
def update (s : StoredFact) (v : VarId) (x : Value) : Bool × StoredFact :=
  (s.get v != x, ⟨if x.isUndef then s.values.erase v else s.values.insert v x⟩)

def remove (s : StoredFact) (v : VarId) : StoredFact := ⟨s.values.erase v⟩

/-- `s` overwritten with `t`; also tells whether that changed anything. -/
def copyFrom (s t : StoredFact) : Bool × StoredFact := if s = t then (false, s) else (true, t)

/-- Takes entries into `target`, in the order in which they come. -/
def meetEntries (entries : List (VarId × Value)) (target : StoredFact) : StoredFact :=
  entries.foldl (fun t e => (t.update e.1 (e.2.meet (t.get e.1))).2) target

/-- `s` taken into `target`. -/
def meetInto (s target : StoredFact) : StoredFact := meetEntries s.values.toList target

/-- A later value of a variable replaces an earlier one. -/
def collect (entries : List (VarId × Value)) : StoredFact :=
  entries.foldl (fun s e => (s.update e.1 e.2).2) empty

end StoredFact
end ProgramAnalysis
