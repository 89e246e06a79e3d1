import ProgramAnalysis.PointsTo.Solver
/-!
What a finished points-to analysis says.
-/
namespace ProgramAnalysis.PointsTo

structure Result where
  graph : PointerGraph
  calls : CallGraph
  objects : Array HeapObject
  stats : PointsToStats
deriving DecidableEq

def State.result (s : State) : Result := ⟨s.graph, s.calls, s.heap.objects, s.stats⟩

def analyze (q : Problem) : Traced Result := do
  return (← solve q .initial).result

namespace Result

def pointsTo (r : Result) (pointer : Pointer) : ObjSet := r.graph.pointsTo pointer

def mayAlias (r : Result) (v w : VarId) : Bool :=
  (r.pointsTo (.var v)).intersects (r.pointsTo (.var w))

/-- The variables that may refer to something, in order. -/
def pointingVars (r : Result) : HandleMap VarId ObjSet :=
  r.graph.nodes.foldl (fun m n => match n.pointer with
    | .var v => if n.objects.isEmpty then m else m.insert v n.objects
    | _ => m) .empty

end Result
end ProgramAnalysis.PointsTo
