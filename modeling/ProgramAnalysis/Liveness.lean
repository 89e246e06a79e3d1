import ProgramAnalysis.Dataflow.Cfg
import ProgramAnalysis.Dataflow.Solver
import ProgramAnalysis.HandleSet
import ProgramAnalysis.Traced
/-!
Live variables: those that some path reads before it defines them.
-/
namespace ProgramAnalysis

abbrev VarSet := HandleSet VarId

namespace Liveness

/-- What is live before a statement, from what is live after it. -/
def before (s : Stmt) (live : VarSet) : VarSet :=
  let kept := match s.def? with
    | some x => live.erase x
    | none => live
  kept.union (.ofList s.uses)

def transfer (p : Program) (n : Node) (live : VarSet) : VarSet :=
  match p.stmtAt? n with
  | some s => before s live
  | none => live

def analysis (p : Program) : Analysis Node EdgeLabel VarSet where
  forward := false
  boundary _ := .empty
  initial := .empty
  meet fact target := target.union fact
  transfer := transfer p
  carry _ live := live
  height := p.vars.size

abbrev Facts := Solution Node VarSet

def solveCfg (p : Program) (c : Cfg) : Traced Facts := do
  let s := Dataflow.solve c.graph (analysis p)
  Traced.log (.fixpointFound c.graph.nodes.length s.iterations)
  return s

def analyze (p : Program) (m : MethodId) : Traced Facts := do
  solveCfg p (← Cfg.build p m)

end Liveness
end ProgramAnalysis
