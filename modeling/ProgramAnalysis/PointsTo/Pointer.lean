import ProgramAnalysis.Handle
/-!
What may hold a reference.
-/
namespace ProgramAnalysis

/-- All elements of an array object count as one pointer. -/
inductive Pointer where
  | var (v : VarId)
  | staticField (f : FieldId)
  | instanceField (o : ObjId) (f : FieldId)
  | elements (o : ObjId)
deriving DecidableEq, Repr

namespace Pointer

def var? : Pointer → Option VarId
  | .var v => some v
  | _ => none

def text : Pointer → String
  | .var v => v.text
  | .staticField f => s!"static.{f.text}"
  | .instanceField o f => s!"{o.text}.{f.text}"
  | .elements o => s!"{o.text}[*]"

end Pointer

/-- Counts of a points-to analysis: what it has found and how much it has done. -/
structure PointsToStats where
  reachableMethods : Nat
  statementsProcessed : Nat
  pointers : Nat
  flowEdges : Nat
  callEdges : Nat
  objects : Nat
  workListEntries : Nat
  propagations : Nat
deriving DecidableEq, Repr

end ProgramAnalysis
