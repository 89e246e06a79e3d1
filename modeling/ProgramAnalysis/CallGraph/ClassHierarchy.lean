import ProgramAnalysis.CallGraph.Basic
import ProgramAnalysis.Program.Hierarchy
import ProgramAnalysis.Traced
/-!
Call graphs from declared types alone: a virtual call may reach the method that any subtype of the
declared class runs.
-/
namespace ProgramAnalysis.ClassHierarchy

/-- Each method that some class of the list runs, once, in the order of the list. -/
def dispatchAll (p : Program) (subsignature : String) :
    List ClassId → List MethodId → Except AnalysisError (List MethodId)
  | [], found => .ok found
  | c :: rest, found => do
    match ← p.dispatch c subsignature with
    | none => dispatchAll p subsignature rest found
    | some m => dispatchAll p subsignature rest (if m ∈ found then found else found ++ [m])

/-- The possible targets of a call, in the order of discovery. -/
def targets (p : Program) (call : Call) : Except AnalysisError (List MethodId) :=
  let c := call.target.cls
  let s := call.target.subsignature
  match call.kind with
  | .static => do return (← p.resolve c s).toList
  | .special => do return (← p.dispatch c s).toList
  | .virtual | .interface => dispatchAll p s (p.subtypes c) []
  | .dynamic => .ok []

structure Search where
  graph : CallGraph
  queue : List MethodId

def Search.link (s : Search) (kind : CallKind) (site : StmtRef) (callee : MethodId) :
    Traced Search := do
  let graph := s.graph.addEdge ⟨kind, site, callee⟩
  if graph.isReachable callee then return { s with graph }
  else
    Traced.log (.hierarchyReached callee)
    return ⟨graph.addReachable callee, s.queue ++ [callee]⟩

def Search.visitCall (p : Program) (m : MethodId) (s : Search) (c : Nat × Option VarId × Call) :
    Traced Search := do
  let (i, _, call) := c
  let found ← targets p call
  if found.isEmpty && call.kind != .dynamic then
    Traced.log (.noHierarchyTarget call.target.subsignature ⟨m, i⟩)
  found.foldlM (fun s callee => s.link call.kind ⟨m, i⟩ callee) s

def Search.visit (p : Program) (s : Search) (m : MethodId) : Traced Search := do
  match ← p.getBody m with
  | none => return s
  | some body => body.calls.foldlM (Search.visitCall p m) s

/-- Methods are visited in the order in which they are reached, each once. -/
def Search.run (p : Program) : Nat → Search → Traced CallGraph
  | 0, s => return s.graph
  | fuel + 1, s =>
    match s.queue with
    | [] => return s.graph
    | m :: queue => do Search.run p fuel (← Search.visit p { s with queue } m)

/-- The call graph of everything reachable from `entry`. -/
def build (p : Program) (entry : MethodId) : Traced CallGraph := do
  let graph := (CallGraph.empty.addEntry entry).addReachable entry
  let graph ← Search.run p (p.methods.size + 2) ⟨graph, [entry]⟩
  Traced.log (.hierarchyDone graph.reachable.size graph.edges.size)
  return graph

end ProgramAnalysis.ClassHierarchy
