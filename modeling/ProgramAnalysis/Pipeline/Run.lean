import ProgramAnalysis.CallGraph.ClassHierarchy
import ProgramAnalysis.Constant.Inter
import ProgramAnalysis.DeadCode
import ProgramAnalysis.Pipeline.Report
/-!
All analyses in one run: the call graph, then constants, live variables and dead code of every
reachable method.
-/
namespace ProgramAnalysis.Pipeline

/-- The configured entry, else the program's own. -/
def entryOf (c : Config) (p : Program) : Except AnalysisError MethodId :=
  match c.callGraph.entry with
  | some signature =>
    match p.methodOfSignature? signature with
    | some m => .ok m
    | none => .error (.entryNotFound signature)
  | none =>
    match p.entry with
    | some m => .ok m
    | none => .error .noEntryMethod

def checkConfig (c : Config) : Except AnalysisError Unit :=
  match c.validate with
  | .ok () => .ok ()
  | .error e => .error (.config e)

def callGraph (c : Config) (p : Program) (entry : MethodId) :
    Traced (CallGraph × Option PointsTo.Result) := do
  match c.callGraph.algorithm with
  | .classHierarchy => return (← ClassHierarchy.build p entry, none)
  | .pointsTo =>
    let r ← PointsTo.analyze ⟨p, c.pointsTo.heapModel, some entry⟩
    return (r.calls, some r)

/-- Constants across calls, if they are asked for. -/
def interConstants (c : Config) (p : Program) (calls : CallGraph) :
    Traced (Option Constant.Facts) := do
  if c.constants.interprocedural then
    let g ← Icfg.build p calls
    return some (← Constant.solveIcfg p g)
  else return none

def methodConstants (p : Program) (inter : Option Constant.Facts) (m : MethodId) :
    Traced (Cfg × Constant.Facts) := do
  match inter with
  | some facts => return (← Cfg.build p m, facts)
  | none => Constant.analyze p m

def deadCode (c : Config) (p : Program) (cfg : Cfg) (constants : Constant.Facts) :
    Traced (List Nat) := do
  if c.deadCode.enabled then DeadCode.detect p cfg constants (← Liveness.solveCfg p cfg)
  else return []

def analyzeMethod (c : Config) (p : Program) (inter : Option Constant.Facts) (m : MethodId) :
    Traced MethodReport := do
  let (cfg, constants) ← methodConstants p inter m
  let exitConstants := (constants.ins.get? cfg.exit).getD .empty
  let dead ← deadCode c p cfg constants
  let signature ← p.getSignature m
  Traced.log (.methodAnalyzed m exitConstants.size dead.length)
  return ⟨m, signature, exitConstants, dead⟩

def run (c : Config) (p : Program) : Traced Report := do
  checkConfig c
  let entry ← entryOf c p
  Traced.log (.pipelineStarted entry c.callGraph.algorithm)
  let (calls, pointsTo) ← callGraph c p entry
  let methods ← Icfg.withBody p calls.reachable.toList
  let inter ← interConstants c p calls
  let reports ← methods.mapM (analyzeMethod c p inter)
  let report : Report := ⟨c.callGraph.algorithm, calls, pointsTo, reports⟩
  Traced.log (.pipelineDone report.methods.length calls.edges.size report.deadCodeCount)
  return report

end ProgramAnalysis.Pipeline
