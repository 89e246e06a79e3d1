import ProgramAnalysis.CallGraph.Basic
import ProgramAnalysis.Count
import ProgramAnalysis.PointsTo.FlowGraph
import ProgramAnalysis.PointsTo.Heap
import ProgramAnalysis.Program.Hierarchy
import ProgramAnalysis.Traced
/-!
Inclusion-based points-to analysis that finds the call graph as it goes. Statements of reached
methods add flow edges and start objects off; an object that arrives at a variable resolves the
accesses and calls that go through that variable; a resolved call reaches its callee.
-/
namespace ProgramAnalysis.PointsTo

/-- `entry` is used in place of the program's own entry. -/
structure Problem where
  program : Program
  model : HeapModel
  entry : Option MethodId

/-- `pending` holds reached methods whose statements wait to be processed, `work` objects on their
way to a node. -/
structure State where
  heap : Heap
  graph : PointerGraph
  calls : CallGraph
  work : List (Nat × ObjSet)
  pending : List MethodId
  started : Bool
  statementsProcessed : Nat
  workListEntries : Nat
  propagations : Nat
deriving DecidableEq

namespace State

def initial : State := ⟨.empty, .empty, .empty, [], [], false, 0, 0, 0⟩

def stats (s : State) : PointsToStats where
  reachableMethods := s.calls.reachable.size
  statementsProcessed := s.statementsProcessed
  pointers := s.graph.nodes.size
  flowEdges := s.graph.edges.size
  callEdges := s.calls.edges.size
  objects := s.heap.size
  workListEntries := s.workListEntries
  propagations := s.propagations

def enqueue (s : State) (n : Nat) (objects : ObjSet) : State :=
  { s with work := s.work ++ [(n, objects)] }

def intern (s : State) (pointer : Pointer) : Nat × State :=
  let (n, graph) := s.graph.intern pointer
  (n, { s with graph })

/-- Objects go to the node of `pointer`. -/
def send (s : State) (pointer : Pointer) (objects : ObjSet) : State :=
  let (n, s) := s.intern pointer
  s.enqueue n objects

/-- A new edge carries what its source has already. -/
def connect (s : State) (source target : Nat) : State :=
  if s.graph.hasEdge source target then s
  else
    let s := { s with graph := s.graph.addEdge source target }
    let objects := s.graph.objects source
    if objects.isEmpty then s else s.enqueue target objects

/-- Everything that `source` may refer to, `target` may refer to. -/
def flow (s : State) (source target : Pointer) : State :=
  let (n, s) := s.intern source
  let (k, s) := s.intern target
  s.connect n k

def allocate (s : State) (model : HeapModel) (site : StmtRef) (ty : Ty) : ObjId × State :=
  let (o, heap) := s.heap.allocate model site ty
  (o, { s with heap })

/-- Arguments flow to parameters, returned variables to the result. -/
def bind (s : State) (call : Call) (result : Option VarId) (body : Body) : State :=
  let s := (call.args.zip body.params).foldl (fun s (a, p) => s.flow (.var a) (.var p)) s
  match result with
  | none => s
  | some x => body.returnVars.foldl (fun s r => s.flow (.var r) (.var x)) s

def reach (s : State) (m : MethodId) : Traced State :=
  if s.calls.isReachable m then return s
  else do
    Traced.log (.methodReached m)
    return { s with calls := s.calls.addReachable m, pending := s.pending ++ [m] }

end State

variable (q : Problem)

/-- A call is bound to a callee once. -/
def link (s : State) (site : StmtRef) (call : Call) (result : Option VarId) (callee : MethodId) :
    Traced State := do
  if s.calls.hasEdge site callee then return s
  else
    Traced.log (.callEdgeFound site callee)
    let s ← { s with calls := s.calls.addEdge ⟨call.kind, site, callee⟩ }.reach callee
    match ← q.program.getBody callee with
    | none => return s
    | some body => return s.bind call result body

/-- The method that a call runs, which depends on the object at its receiver unless the call is
static. Arrays have the methods of the root class. A lookup by receiver fails if there is none. -/
def callTarget (heap : Heap) (receiver : Option ObjId) (call : Call) :
    Except AnalysisError (Option MethodId) := do
  match call.kind with
  | .static => q.program.resolve call.target.cls call.target.subsignature
  | .special =>
    let _ ← orDangling receiver
    q.program.dispatch call.target.cls call.target.subsignature
  | .virtual | .interface =>
    match (← orDangling (receiver.bind heap.object?)).ty with
    | .cls c => q.program.dispatch c call.target.subsignature
    | .array _ =>
      match q.program.root with
      | none => return none
      | some root => q.program.dispatch root call.target.subsignature
    | .prim _ | .null => return none
  | .dynamic => return none

def processStmt (m : MethodId) (s : State) (indexed : Nat × Stmt) : Traced State := do
  let (i, stmt) := indexed
  let s := { s with statementsProcessed := s.statementsProcessed + 1 }
  match stmt with
  | .assign x (.new ty) =>
    let (o, s) := s.allocate q.model ⟨m, i⟩ ty
    return s.send (.var x) (.singleton o)
  | .assign x (.var y) => return s.flow (.var y) (.var x)
  | .assign x (.field none f) => return s.flow (.staticField f) (.var x)
  | .store (.field none f) y => return s.flow (.var y) (.staticField f)
  | .invoke result call =>
    if call.kind = .static then
      match ← callTarget q s.heap none call with
      | some callee => link q s ⟨m, i⟩ call result callee
      | none =>
        Traced.log (.noStaticTarget call.target.subsignature ⟨m, i⟩)
        return s
    else return s
  | _ => return s

def processMethod (s : State) (m : MethodId) : Traced State := do
  match ← q.program.getBody m with
  | none => return s
  | some body => body.indexed.foldlM (processStmt q m) s

def processPending : Nat → State → Traced State
  | 0, s => return s
  | fuel + 1, s =>
    match s.pending with
    | [] => return s
    | m :: pending => do processPending fuel (← processMethod q { s with pending } m)

/-- What is new at the node moves on to its successors. -/
def propagate (s : State) (n : Nat) (objects : ObjSet) : Traced (ObjSet × State) := do
  let pointer ← orDangling (s.graph.pointer? n)
  let delta := objects.diff (s.graph.objects n)
  if delta.isEmpty then return (delta, s)
  else
    Traced.log (.pointerGrew pointer delta.toList)
    let s := { s with propagations := s.propagations + 1, graph := s.graph.addObjects n delta }
    return (delta, (s.graph.succs n).foldl (fun s k => s.enqueue k delta) s)

def accessSites (uses : UseSites) : List Nat :=
  uses.fieldStores ++ uses.fieldLoads ++ uses.elementStores ++ uses.elementLoads

/-- Fails on a site that is no statement of the body. -/
def checkSites (body : Body) (sites : List Nat) : Except AnalysisError Unit :=
  sites.forM fun i => do let _ ← orDangling (body.stmt? i)

/-- The flows that accesses through `v` have once `v` may refer to `o`. -/
def accessFlows (body : Body) (uses : UseSites) (o : ObjId) : List (Pointer × Pointer) :=
  (uses.fieldStores.filterMap fun i => match body.stmt? i with
    | some (.store (.field _ f) y) => some (.var y, .instanceField o f)
    | _ => none) ++
  (uses.fieldLoads.filterMap fun i => match body.stmt? i with
    | some (.assign x (.field _ f)) => some (.instanceField o f, .var x)
    | _ => none) ++
  (uses.elementStores.filterMap fun i => match body.stmt? i with
    | some (.store _ y) => some (.var y, .elements o)
    | _ => none) ++
  (uses.elementLoads.filterMap fun i => match body.stmt? i with
    | some (.assign x _) => some (.elements o, .var x)
    | _ => none)

/-- A call through a receiver that may be `o`: its target receives `o` and is linked. -/
def processCall (body : Body) (m : MethodId) (o : ObjId) (s : State) (i : Nat) :
    Traced State := do
  match ← orDangling (body.stmt? i) with
  | .invoke result call =>
    match ← callTarget q s.heap (some o) call with
    | none =>
      Traced.log (.noReceiverTarget call.target.subsignature o ⟨m, i⟩)
      return s
    | some callee =>
      let s := match (← q.program.getBody callee).bind (·.this) with
        | some this => s.send (.var this) (.singleton o)
        | none => s
      link q s ⟨m, i⟩ call result callee
  | _ => return s

/-- What follows from `v` now being a possible reference to `o`. -/
def processArrival (v : VarId) (s : State) (o : ObjId) : Traced State := do
  let m := (← q.program.getVar v).method
  match ← q.program.getBody m with
  | none => return s
  | some body =>
    match body.usesOf v with
    | none => return s
    | some uses =>
      checkSites body (accessSites uses)
      let s := (accessFlows body uses o).foldl (fun s (a, b) => s.flow a b) s
      uses.invokes.foldlM (processCall q body m o) s

def processArrivals (s : State) (n : Nat) (delta : ObjSet) : Traced State := do
  match ← orDangling (s.graph.pointer? n) with
  | .var v => delta.toList.foldlM (processArrival q v) s
  | _ => return s

/-- Pending methods, then one entry of the work list; `false` if the work list is empty. -/
def step (s : State) : Traced (Bool × State) := do
  let s ← processPending q (q.program.methods.size + 1) s
  match s.work with
  | [] => return (false, s)
  | (n, objects) :: work =>
    let s := { s with work, workListEntries := s.workListEntries + 1 }
    let (delta, s) ← propagate s n objects
    return (true, ← processArrivals q s n delta)

/-- Starting twice is starting once. -/
def start (s : State) : Traced State :=
  if s.started then return s
  else match q.entry.or q.program.entry with
    | none => Traced.fail .noEntryMethod
    | some entry => do
      Traced.log (.pointsToStarted entry)
      let s ← { s with calls := s.calls.addEntry entry }.reach entry
      return { s with started := true }

/-- The number of statements of a method, zero without a body. -/
def bodySize (p : Program) (m : MethodId) : Nat :=
  ((p.method? m).bind (·.body)).elim 0 Body.size

def statementCount (p : Program) : Nat := total (p.methodIds.map (bodySize p))

/-- With `n` variables and statements there are less than `n` objects and at most `n ^ 2` pointers,
and an entry of the work list stems from an allocation, a flow edge, an object that moves along
one, or a receiver. -/
def stepBound (p : Program) : Nat := 4 * (p.vars.size + statementCount p + 1).pow 7 + 1

def run : Nat → State → Traced State
  | 0, s => return s
  | fuel + 1, s => do
    let (more, s) ← step q s
    if more then run fuel s else return s

/-- Runs until nothing is left to do. -/
def solve (s : State) : Traced State := do
  let s ← start q s
  let s ← run q (stepBound q.program) s
  Traced.log (.pointsToDone s.stats)
  return s

end ProgramAnalysis.PointsTo
