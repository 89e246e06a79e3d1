import ProgramAnalysis.CallGraph.Basic
import ProgramAnalysis.HandleSet
import ProgramAnalysis.Table
/-!
Call graphs with indexes beside the lists: which methods are reachable, which calls have an edge,
and the far ends of the edges by call site and by callee. Membership and lookups read the indexes.
-/
namespace ProgramAnalysis

structure IndexedCallGraph where
  graph : CallGraph
  reached : HandleSet MethodId
  linked : Table (StmtRef × MethodId) Unit
  calleesAt : Table StmtRef (List MethodId)
  callersOf : Table MethodId (List StmtRef)

namespace IndexedCallGraph

def empty : IndexedCallGraph := ⟨.empty, .empty, .empty, .empty, .empty⟩

def isReachable (g : IndexedCallGraph) (m : MethodId) : Bool := g.reached.contains m

def hasEdge (g : IndexedCallGraph) (site : StmtRef) (callee : MethodId) : Bool :=
  (g.linked.get? (site, callee)).isSome

def callees (g : IndexedCallGraph) (site : StmtRef) : List MethodId :=
  (g.calleesAt.get? site).getD []

def callers (g : IndexedCallGraph) (m : MethodId) : List StmtRef := (g.callersOf.get? m).getD []

def edgesFrom (g : IndexedCallGraph) (site : StmtRef) : List CallEdge := g.graph.edgesFrom site

def addEntry (g : IndexedCallGraph) (m : MethodId) : IndexedCallGraph :=
  { g with graph := g.graph.addEntry m }

/-- Also tells whether the method is new. -/
def addReachable (g : IndexedCallGraph) (m : MethodId) : Bool × IndexedCallGraph :=
  if g.isReachable m then (false, g)
  else (true, { g with
    graph := { g.graph with reachable := g.graph.reachable.push m }
    reached := g.reached.insert m })

/-- Also tells whether the call had no edge to the callee. -/
def addEdge (g : IndexedCallGraph) (e : CallEdge) : Bool × IndexedCallGraph :=
  if g.hasEdge e.site e.callee then (false, g)
  else (true, { g with
    graph := { g.graph with edges := g.graph.edges.push e }
    linked := g.linked.insert (e.site, e.callee) ()
    calleesAt := g.calleesAt.insert e.site (g.callees e.site ++ [e.callee])
    callersOf := g.callersOf.insert e.callee (g.callers e.callee ++ [e.site]) })

end IndexedCallGraph
end ProgramAnalysis
