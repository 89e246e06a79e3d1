import ProgramAnalysis.Constant.Intra
import ProgramAnalysis.Liveness
/-!
Dead statements: those that no feasible path reaches, and assignments without effect to variables
that are not live afterwards. A branch on a constant is feasible one way only.
-/
namespace ProgramAnalysis.DeadCode

/-- Neither throws nor allocates. -/
def pureExpr : Expr → Bool
  | .new _ | .cast .. | .field .. | .element .. | .length _ => false
  | .binary b => !b.op.isDivision
  | _ => true

def along (edges : List FlowEdge) (flow : Flow) : List FlowEdge :=
  edges.filter fun e => e.label.kind = .within flow

def feasibleFrom (f : Fact) (edges : List FlowEdge) : Stmt → List FlowEdge
  | .branch c _ =>
    match Value.evalBinary c.op (f.get c.lhs) (f.get c.rhs) with
    | .constant n => along edges (if n = 0 then .ifFalse else .ifTrue)
    | _ => edges
  | .switch v _ _ =>
    match f.get v with
    | .constant n =>
      let cases := along edges (.switchCase n)
      if cases.isEmpty then along edges .switchDefault else cases
    | _ => edges
  | _ => edges

/-- The edges out of a node that its fact allows. -/
def feasible (p : Program) (c : Cfg) (constants : Constant.Facts) (n : Node) : List FlowEdge :=
  let edges := c.graph.edgesFrom n
  match constants.ins.get? n, p.stmtAt? n with
  | some f, some s => feasibleFrom f edges s
  | _, _ => edges

/-- Breadth first; a node is queued once. -/
def walk (next : Node → List Node) : Nat → List Node → List Node → List Node
  | 0, _, seen => seen
  | _ + 1, [], seen => seen
  | fuel + 1, n :: queue, seen =>
    let fresh := (next n).foldl (fun found k => if k ∈ seen ∨ k ∈ found then found
      else found ++ [k]) []
    walk next fuel (queue ++ fresh) (seen ++ fresh)

/-- The nodes on feasible paths from the entry. -/
def reached (p : Program) (c : Cfg) (constants : Constant.Facts) : List Node :=
  walk (fun n => (feasible p c constants n).map (·.target)) (c.graph.nodes.length + 1)
    [c.entry] [c.entry]

def deadAssignment (p : Program) (live : Liveness.Facts) (n : Node) : Bool :=
  match p.stmtAt? n with
  | some (.assign x e) =>
    pureExpr e && !((live.outs.get? n).any fun out => out.contains x)
  | _ => false

/-- The dead statements in order. -/
def detect (p : Program) (c : Cfg) (constants : Constant.Facts) (live : Liveness.Facts) :
    Traced (List Nat) := do
  let nodes := reached p c constants
  let isReached (i : Nat) : Bool := nodes.contains (.stmt c.method i)
  let unreachable := (List.range c.size).filter fun i => !isReached i
  let dead := (List.range c.size).filter fun i =>
    !isReached i || deadAssignment p live (.stmt c.method i)
  Traced.log (.deadCodeFound c.method unreachable.length (dead.length - unreachable.length))
  return dead

def analyze (p : Program) (m : MethodId) : Traced (List Nat) := do
  let (c, constants) ← Constant.analyze p m
  detect p c constants (← Liveness.solveCfg p c)

end ProgramAnalysis.DeadCode
