import ProgramAnalysis.Handle
import ProgramAnalysis.Ir.Stmt
/-!
Call graphs: entries, reachable methods and edges, each kept in the order of insertion. There is
at most one edge from a call site to a callee, and it keeps the kind it came with.
-/
namespace ProgramAnalysis

structure CallEdge where
  kind : CallKind
  site : StmtRef
  callee : MethodId
deriving DecidableEq

structure CallGraph where
  entries : List MethodId
  reachable : Array MethodId
  edges : Array CallEdge
deriving DecidableEq

namespace CallGraph

def empty : CallGraph := ⟨[], #[], #[]⟩

def addEntry (g : CallGraph) (m : MethodId) : CallGraph :=
  if m ∈ g.entries then g else { g with entries := g.entries ++ [m] }

def isReachable (g : CallGraph) (m : MethodId) : Bool := g.reachable.contains m

/-- No change if the method is reachable already. -/
def addReachable (g : CallGraph) (m : MethodId) : CallGraph :=
  if g.isReachable m then g else { g with reachable := g.reachable.push m }

def hasEdge (g : CallGraph) (site : StmtRef) (callee : MethodId) : Bool :=
  g.edges.any fun e => e.site == site && e.callee == callee

/-- No change if the site has an edge to the callee already. -/
def addEdge (g : CallGraph) (e : CallEdge) : CallGraph :=
  if g.hasEdge e.site e.callee then g else { g with edges := g.edges.push e }

def edgesFrom (g : CallGraph) (site : StmtRef) : List CallEdge :=
  g.edges.toList.filter fun e => e.site == site

def callees (g : CallGraph) (site : StmtRef) : List MethodId := (g.edgesFrom site).map (·.callee)

def callers (g : CallGraph) (m : MethodId) : List StmtRef :=
  (g.edges.toList.filter fun e => e.callee == m).map (·.site)

end CallGraph
end ProgramAnalysis
