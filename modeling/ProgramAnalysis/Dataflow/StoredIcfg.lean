import ProgramAnalysis.Dataflow.Icfg
import ProgramAnalysis.Dataflow.StoredCfg
/-!
The graph over all reachable methods as it is stored: the edges out of each node and the edges into
each, in two maps that every new edge enters, and the linked calls in a third. Edges within methods
and those past calls enter first, method by method; the ways back from callees wait until the ways
into them are there.
-/
namespace ProgramAnalysis

structure StoredIcfg where
  entries : List MethodId
  nodes : List Node
  outgoing : Table Node (List FlowEdge)
  incoming : Table Node (List FlowEdge)
  linked : Table Node (List MethodId)

namespace StoredIcfg

def empty (entries : List MethodId) : StoredIcfg := ⟨entries, [], .empty, .empty, .empty⟩

def edgesFrom (g : StoredIcfg) (n : Node) : List FlowEdge := (g.outgoing.get? n).getD []

def edgesInto (g : StoredIcfg) (n : Node) : List FlowEdge := (g.incoming.get? n).getD []

def addEdge (g : StoredIcfg) (e : FlowEdge) : StoredIcfg :=
  { g with
    incoming := g.incoming.push e.target e
    outgoing := g.outgoing.push e.source e }

/-- A call is linked if one of its callees has a body. -/
def linkSite (p : Program) (calls : CallGraph) (g : StoredIcfg) (site : StmtRef) :
    Except AnalysisError StoredIcfg := do
  let found ← Icfg.withBody p (calls.callees site)
  return if found.isEmpty then g else { g with linked := g.linked.insert (.ofStmtRef site) found }

def linkMethod (p : Program) (calls : CallGraph) (g : StoredIcfg) (m : MethodId) :
    Except AnalysisError StoredIcfg := do
  (← p.getCallSites m).foldlM (linkSite p calls) g

/-- A graph under construction, with the ways back from callees that wait. -/
structure Draft where
  graph : StoredIcfg
  returns : List FlowEdge

/-- An edge out of a linked call passes the callees by. -/
def Draft.addEdge (d : Draft) (e : FlowEdge) : Draft :=
  match d.graph.linked.get? e.source with
  | none => { d with graph := d.graph.addEdge e }
  | some found =>
    { graph := d.graph.addEdge ⟨e.source, e.target, ⟨.callToReturn, some e.source⟩⟩
      returns := d.returns ++ found.map fun m => ⟨.exit m, e.target, ⟨.ret, some e.source⟩⟩ }

def Draft.addMethod (p : Program) (d : Draft) (m : MethodId) : Except AnalysisError Draft := do
  let c ← StoredCfg.build p m
  return c.edges.foldl addEdge { d with graph.nodes := d.graph.nodes ++ c.nodes }

def addCall (g : StoredIcfg) (call : Node) (m : MethodId) : StoredIcfg :=
  g.addEdge ⟨call, .entry m, ⟨.call, some call⟩⟩

/-- The methods that have bodies, and the graph over them. -/
def join (p : Program) (calls : CallGraph) :
    Except AnalysisError (List MethodId × StoredIcfg) := do
  let methods ← Icfg.withBody p calls.reachable.toList
  let start ← methods.foldlM (linkMethod p calls) (.empty calls.entries)
  let inner ← methods.foldlM (Draft.addMethod p) ⟨start, []⟩
  let sites := inner.graph.linked.entries.mergeSort fun a b => Icfg.before a.1 b.1
  let entered := sites.foldl (fun g (call, found) => found.foldl (addCall · call) g) inner.graph
  return (methods, inner.returns.foldl addEdge entered)

def build (p : Program) (calls : CallGraph) : Traced StoredIcfg := do
  let (methods, g) ← join p calls
  Traced.log (.callsLinked methods.length g.nodes.length g.linked.size)
  return g

end StoredIcfg
end ProgramAnalysis
