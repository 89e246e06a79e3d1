import ProgramAnalysis.CallGraph.Basic
import ProgramAnalysis.Dataflow.Cfg
import ProgramAnalysis.Traced
/-!
The control-flow graphs of all reachable methods, joined at calls. A call is linked if one of its
callees has a body. Control leaves a linked call for the entries of those callees, comes back from
their exits, and also passes them by.
-/
namespace ProgramAnalysis

structure Icfg where
  graph : FlowGraph
  linked : List (Node × List MethodId)

namespace Icfg

def callees (g : Icfg) (n : Node) : List MethodId := (g.linked.lookup n).getD []

def isLinked (g : Icfg) (n : Node) : Bool := g.linked.any fun l => l.1 == n

/-- Whether the method's own graph is part of this one. -/
def contains (g : Icfg) (m : MethodId) : Bool := g.graph.edges.any fun e => e.source == .entry m

def withBody (p : Program) (ms : List MethodId) : Except AnalysisError (List MethodId) :=
  ms.filterM fun m => do return (← p.getBody m).isSome

def linkSite (p : Program) (calls : CallGraph) (site : StmtRef) :
    Except AnalysisError (List (Node × List MethodId)) := do
  let found ← withBody p (calls.callees site)
  return if found.isEmpty then [] else [(.ofStmtRef site, found)]

def linkMethod (p : Program) (calls : CallGraph) (m : MethodId) :
    Except AnalysisError (List (Node × List MethodId)) := do
  return (← (← p.getCallSites m).mapM (linkSite p calls)).flatten

/-- An edge out of a linked call passes the callees by. -/
def passEdge (linked : List (Node × List MethodId)) (e : FlowEdge) : FlowEdge :=
  match linked.lookup e.source with
  | none => e
  | some _ => ⟨e.source, e.target, ⟨.callToReturn, some e.source⟩⟩

def returnEdges (linked : List (Node × List MethodId)) (e : FlowEdge) : List FlowEdge :=
  ((linked.lookup e.source).getD []).map fun m => ⟨.exit m, e.target, ⟨.ret, some e.source⟩⟩

def callEdges (l : Node × List MethodId) : List FlowEdge :=
  l.2.map fun m => ⟨l.1, .entry m, ⟨.call, some l.1⟩⟩

/-- By method, then by statement. -/
def before (a b : Node) : Bool :=
  a.method.index < b.method.index ||
    (a.method.index == b.method.index && a.stmtIndex?.getD 0 ≤ b.stmtIndex?.getD 0)

/-- Edges within methods come first, then calls in the order of their sites, then returns. -/
def assemble (entries : List MethodId) (cfgs : List Cfg) (linked : List (Node × List MethodId)) :
    Icfg where
  linked := linked
  graph := {
    nodes := cfgs.flatMap (·.graph.nodes)
    edges :=
      cfgs.flatMap (fun c => c.graph.edges.map (passEdge linked)) ++
      (linked.mergeSort fun a b => before a.1 b.1).flatMap callEdges ++
      cfgs.flatMap (fun c => c.graph.edges.flatMap (returnEdges linked))
    ends := entries.map fun m => (.entry m, .exit m) }

/-- The methods that have bodies, and the graph over them. -/
def join (p : Program) (calls : CallGraph) : Except AnalysisError (List MethodId × Icfg) := do
  let methods ← withBody p calls.reachable.toList
  let linked := (← methods.mapM (linkMethod p calls)).flatten
  let cfgs ← methods.mapM (Cfg.build p)
  return (methods, assemble calls.entries cfgs linked)

def build (p : Program) (calls : CallGraph) : Traced Icfg := do
  let (methods, g) ← join p calls
  Traced.log (.callsLinked methods.length g.graph.nodes.length g.linked.length)
  return g

end Icfg
end ProgramAnalysis
