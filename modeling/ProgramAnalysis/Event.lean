import ProgramAnalysis.Config.Basic
import ProgramAnalysis.PointsTo.Pointer
import ProgramAnalysis.Program.Basic
/-!
What the analyses report while they run. Times are not kept: a line that ends in a time shows `_`
in its place.
-/
namespace ProgramAnalysis

inductive LogLevel where
  | info | warn | debug | trace
deriving DecidableEq, Repr

def LogLevel.label : LogLevel → String
  | .info => "INFO"
  | .warn => "WARN"
  | .debug => "DEBUG"
  | .trace => "TRACE"

inductive Event where
  | pointsToStarted (entry : MethodId)
  | methodReached (m : MethodId)
  | pointerGrew (pointer : Pointer) (objects : List ObjId)
  | callEdgeFound (site : StmtRef) (callee : MethodId)
  | noStaticTarget (subsignature : String) (site : StmtRef)
  | noReceiverTarget (subsignature : String) (receiver : ObjId) (site : StmtRef)
  | pointsToDone (stats : PointsToStats)
  | hierarchyReached (m : MethodId)
  | noHierarchyTarget (subsignature : String) (site : StmtRef)
  | hierarchyDone (reachable edges : Nat)
  | callsLinked (methods nodes sites : Nat)
  | fixpointFound (nodes iterations : Nat)
  | deadCodeFound (m : MethodId) (unreachable assignments : Nat)
  | pipelineStarted (entry : MethodId) (algorithm : CallGraphAlgorithm)
  | methodAnalyzed (m : MethodId) (constants dead : Nat)
  | pipelineDone (methods edges dead : Nat)
deriving DecidableEq

namespace Event

def level : Event → LogLevel
  | .pointsToStarted _ | .pointsToDone _ | .hierarchyDone .. | .pipelineStarted ..
  | .pipelineDone .. => .info
  | .noStaticTarget .. | .noReceiverTarget .. | .noHierarchyTarget .. => .warn
  | .pointerGrew .. => .trace
  | _ => .debug

def objectsText (objects : List ObjId) : String :=
  "[" ++ ", ".intercalate (objects.map fun o => s!"ObjId({o.index})") ++ "]"

/-- Fails on an event about a method that does not exist. -/
def message (p : Program) : Event → Except AnalysisError String
  | .pointsToStarted entry =>
    return s!"Pointer analysis: starting from {← p.getSignature entry}"
  | .methodReached m => return s!"Reachable: {← p.getSignature m}"
  | .pointerGrew pointer objects => return s!"pt({pointer.text}) += {objectsText objects}"
  | .callEdgeFound site callee =>
    return s!"Call edge: {site.text} -> {← p.getSignature callee}"
  | .noStaticTarget subsignature site =>
    return s!"No target for static call {subsignature} at {site.text}"
  | .noReceiverTarget subsignature receiver site =>
    return s!"No target for {subsignature} on {receiver.text} at {site.text}"
  | .pointsToDone s =>
    return s!"Pointer analysis done: {s.reachableMethods} reachable methods, " ++
      s!"{s.statementsProcessed} statements, {s.pointers} pointers, {s.flowEdges} PFG edges, " ++
      s!"{s.callEdges} call edges, {s.objects} objects in _ms"
  | .hierarchyReached m => return s!"CHA: reachable {← p.getSignature m}"
  | .noHierarchyTarget subsignature site =>
    return s!"CHA: no target for {subsignature} at {site.text}"
  | .hierarchyDone reachable edges =>
    return s!"CHA call graph: {reachable} reachable methods, {edges} edges in _ms"
  | .callsLinked methods nodes sites =>
    return s!"ICFG: {methods} methods, {nodes} nodes, {sites} linked call sites"
  | .fixpointFound nodes iterations =>
    return s!"Data-flow fixpoint: {nodes} nodes, {iterations} iterations in _ms"
  | .deadCodeFound m unreachable assignments =>
    return s!"Dead code in {← p.getSignature m}: {unreachable} unreachable, " ++
      s!"{assignments} dead assignments"
  | .pipelineStarted entry algorithm =>
    return s!"Analysis pipeline start: entry {← p.getSignature entry}, " ++
      s!"{algorithm.label} call graph"
  | .methodAnalyzed m constants dead =>
    return s!"{← p.getSignature m}: {constants} constants at exit, {dead} dead statements"
  | .pipelineDone methods edges dead =>
    return s!"Analysis pipeline complete: {methods} methods, {edges} call edges, " ++
      s!"{dead} dead statements in _ms"

def text (p : Program) (e : Event) : Except AnalysisError String := do
  return s!"{e.level.label} {← e.message p}"

/-- The lines of a log up to an event that has none, and how that one fails. -/
def lines (p : Program) : List Event → List String × Except AnalysisError Unit
  | [] => ([], .ok ())
  | e :: rest =>
    match e.text p with
    | .error failure => ([], .error failure)
    | .ok line =>
      let (found, outcome) := lines p rest
      (line :: found, outcome)

end Event
end ProgramAnalysis
