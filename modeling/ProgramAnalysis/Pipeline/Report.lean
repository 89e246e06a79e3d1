import ProgramAnalysis.Constant.Fact
import ProgramAnalysis.Count
import ProgramAnalysis.Json.Ir
import ProgramAnalysis.PointsTo.Result
/-!
Reports of analysis runs, and their JSON form.
-/
namespace ProgramAnalysis

/-- `exitConstants` holds the facts that flow into the exit. -/
structure MethodReport where
  method : MethodId
  signature : String
  exitConstants : Fact
  deadCode : List Nat
deriving DecidableEq

/-- `pointsTo` is there only if the call graph came from it. -/
structure Report where
  algorithm : CallGraphAlgorithm
  calls : CallGraph
  pointsTo : Option PointsTo.Result
  methods : List MethodReport
deriving DecidableEq

namespace CallEdge

def toJson (e : CallEdge) : Json :=
  .obj [("kind", e.kind.toJson), ("call_site", e.site.toJson), ("callee", e.callee.toJson)]

def ofJson? (j : Json) : Option CallEdge := do
  let [some kind, some site, some callee] ← j.record? ["kind", "call_site", "callee"] | none
  return ⟨← CallKind.ofJson? kind, ← StmtRef.ofJson? site, ← MethodId.ofJson? callee⟩

end CallEdge

def CallGraph.toJson (g : CallGraph) : Json :=
  .obj [("entry_methods", .arr (g.entries.map MethodId.toJson)),
    ("reachable", .arr (g.reachable.toList.map MethodId.toJson)),
    ("edges", .arr (g.edges.toList.map CallEdge.toJson))]

/-- Runs are not timed: the duration is always zero. -/
def PointsToStats.toJson (s : PointsToStats) : Json :=
  .obj [("reachable_methods", .nat s.reachableMethods),
    ("statements_processed", .nat s.statementsProcessed),
    ("pointers", .nat s.pointers),
    ("pfg_edges", .nat s.flowEdges),
    ("call_edges", .nat s.callEdges),
    ("objects", .nat s.objects),
    ("work_list_entries", .nat s.workListEntries),
    ("propagations", .nat s.propagations),
    ("duration_ms", .decimal 0 1)]

namespace Value

def toJson : Value → Json
  | .undef => .str "Undef"
  | .constant n => .tagged "Constant" (.int n.toInt)
  | .nac => .str "Nac"

def ofJson? (j : Json) : Option Value :=
  if j.bareCase? = some "Undef" then some .undef
  else if j.bareCase? = some "Nac" then some .nac
  else match j.case? with
    | some ("Constant", some n) => n.int32?.map .constant
    | _ => none

end Value

/-- Variables are the member names, in ascending order. -/
def Fact.toJson (f : Fact) : Json :=
  .obj (f.toList.map fun (v, value) => (toString v.index, value.toJson))

def MethodReport.toJson (r : MethodReport) : Json :=
  .obj [("method", r.method.toJson), ("signature", .str r.signature),
    ("exit_constants", r.exitConstants.toJson), ("dead_code", .arr (r.deadCode.map Json.nat))]

namespace Report

def method? (r : Report) (m : MethodId) : Option MethodReport :=
  r.methods.find? fun report => report.method == m

def deadCodeCount (r : Report) : Nat := total (r.methods.map (·.deadCode.length))

def toJson (r : Report) : Json :=
  .obj [("algorithm", .str r.algorithm.key), ("call_graph", r.calls.toJson),
    ("pta_stats", .option (·.stats.toJson) r.pointsTo),
    ("methods", .arr (r.methods.map MethodReport.toJson))]

def text (r : Report) : String := r.toJson.pretty 0

end Report
end ProgramAnalysis
