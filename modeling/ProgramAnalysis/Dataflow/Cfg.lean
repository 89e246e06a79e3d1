import ProgramAnalysis.Dataflow.Graph
import ProgramAnalysis.Program.Basic
/-!
The control-flow graph of a body.
-/
namespace ProgramAnalysis

structure Cfg where
  method : MethodId
  size : Nat
  graph : FlowGraph

namespace Cfg

/-- Positions past the last statement are the exit. -/
def nodeAt (m : MethodId) (size i : Nat) : Node := if i < size then .stmt m i else .exit m

def edgesOf (m : MethodId) (size i : Nat) (s : Stmt) : List FlowEdge :=
  let jump (target : Nat) (flow : Flow) : FlowEdge :=
    .within (.stmt m i) (nodeAt m size target) flow
  match s with
  | .goto target => [jump target .goto]
  | .branch _ target => [jump target .ifTrue, jump (i + 1) .ifFalse]
  | .switch _ cases default =>
    cases.map (fun c => jump c.2 (.switchCase c.1)) ++ [jump default .switchDefault]
  | .ret _ => [.within (.stmt m i) (.exit m) .ret]
  | _ => [jump (i + 1) .fallThrough]

/-- The entry, a node per statement, and the exit; edges in the order of their sources. -/
def ofBody (m : MethodId) (b : Body) : Cfg where
  method := m
  size := b.size
  graph := {
    nodes := .entry m :: (List.range b.size).map (.stmt m) ++ [.exit m]
    edges := .within (.entry m) (nodeAt m b.size 0) .entry ::
      b.indexed.flatMap fun (i, s) => edgesOf m b.size i s
    ends := [(.entry m, .exit m)] }

def build (p : Program) (m : MethodId) : Except AnalysisError Cfg := do
  return ofBody m (← p.requireBody m)

def entry (c : Cfg) : Node := .entry c.method
def exit (c : Cfg) : Node := .exit c.method

end Cfg

/-- The statement at a node; entries and exits have none. -/
def Program.stmtAt? (p : Program) (n : Node) : Option Stmt := do
  let i ← n.stmtIndex?
  let b ← (← p.method? n.method).body
  b.stmt? i

end ProgramAnalysis
