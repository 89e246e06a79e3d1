import ProgramAnalysis.Constant.Fact
import ProgramAnalysis.Dataflow.Cfg
import ProgramAnalysis.Dataflow.Solver
import ProgramAnalysis.Traced
/-!
Constant propagation within a method. Parameters start as `nac`, all other variables as `undef`;
only variables that hold an int are tracked.
-/
namespace ProgramAnalysis

def Program.holdsInt (p : Program) (v : VarId) : Bool := (p.var? v).any (·.ty.holdsInt)

/-- Fails on a variable that does not exist. -/
def Program.checkVars (p : Program) (vs : List VarId) : Except AnalysisError Unit :=
  vs.forM fun v => do let _ ← p.getVar v

namespace Constant

def evaluate (e : Expr) (f : Fact) : Value :=
  match e with
  | .var v => f.get v
  | .int n => .constant n
  | .binary b => .evalBinary b.op (f.get b.lhs) (f.get b.rhs)
  | _ => .nac

def transferStmt (p : Program) (s : Stmt) (f : Fact) : Fact :=
  match s with
  | .assign x e => if p.holdsInt x then f.set x (evaluate e f) else f
  | .invoke (some x) _ => if p.holdsInt x then f.set x .nac else f
  | _ => f

def transfer (p : Program) (n : Node) (f : Fact) : Fact :=
  match p.stmtAt? n with
  | some s => transferStmt p s f
  | none => f

def paramsOf (p : Program) (m : MethodId) : List VarId :=
  match (p.method? m).bind (·.body) with
  | some b => b.params
  | none => []

def boundary (p : Program) (n : Node) : Fact :=
  .ofList (((paramsOf p n.method).filter p.holdsInt).map (·, .nac))

/-- A variable rises twice at most. -/
def height (p : Program) : Nat := 2 * p.vars.size

def analysis (p : Program) : Analysis Node EdgeLabel Fact where
  forward := true
  boundary := boundary p
  initial := .empty
  meet := Fact.meet
  transfer := transfer p
  carry _ f := f
  height := height p

abbrev Facts := Solution Node Fact

def solveCfg (p : Program) (c : Cfg) : Traced Facts := do
  p.checkVars (paramsOf p c.method)
  let s := Dataflow.solve c.graph (analysis p)
  Traced.log (.fixpointFound c.graph.nodes.length s.iterations)
  return s

def analyze (p : Program) (m : MethodId) : Traced (Cfg × Facts) := do
  let c ← Cfg.build p m
  return (c, ← solveCfg p c)

end Constant
end ProgramAnalysis
