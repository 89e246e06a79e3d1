import ProgramAnalysis.Dataflow.Cfg
import ProgramAnalysis.Table
/-!
Control-flow graphs as they are stored: the edges out of each node and the edges into each, in two
maps that every new edge enters.
-/
namespace ProgramAnalysis

structure StoredCfg where
  method : MethodId
  nodes : List Node
  outgoing : Table Node (List FlowEdge)
  incoming : Table Node (List FlowEdge)

namespace StoredCfg

def edgesFrom (c : StoredCfg) (n : Node) : List FlowEdge := (c.outgoing.get? n).getD []

def edgesInto (c : StoredCfg) (n : Node) : List FlowEdge := (c.incoming.get? n).getD []

/-- All edges in node order. -/
def edges (c : StoredCfg) : List FlowEdge := c.nodes.flatMap c.edgesFrom

def exit (c : StoredCfg) : Node := .exit c.method

def addEdge (c : StoredCfg) (source target : Node) (flow : Flow) : StoredCfg :=
  let e : FlowEdge := .within source target flow
  { c with
    incoming := c.incoming.insert target (c.edgesInto target ++ [e])
    outgoing := c.outgoing.insert source (c.edgesFrom source ++ [e]) }

/-- The edges out of a statement in a body of that size. -/
def addStmt (size : Nat) (c : StoredCfg) (i : Nat) (s : Stmt) : StoredCfg :=
  let node : Node := .stmt c.method i
  let position := Cfg.nodeAt c.method size
  match s with
  | .goto target => c.addEdge node (position target) .goto
  | .branch _ target =>
    (c.addEdge node (position target) .ifTrue).addEdge node (position (i + 1)) .ifFalse
  | .switch _ cases default =>
    (cases.foldl (fun c (value, target) => c.addEdge node (position target) (.switchCase value))
      c).addEdge node (position default) .switchDefault
  | .ret _ => c.addEdge node c.exit .ret
  | _ => c.addEdge node (position (i + 1)) .fallThrough

def ofBody (m : MethodId) (b : Body) : StoredCfg :=
  let nodes := .entry m :: (List.range b.size).map (.stmt m) ++ [.exit m]
  let start : StoredCfg := ⟨m, nodes, .empty, .empty⟩
  b.indexed.foldl (fun c (i, s) => c.addStmt b.size i s)
    (start.addEdge (.entry m) (Cfg.nodeAt m b.size 0) .entry)

/-- A method without a body has no graph. -/
def build (p : Program) (m : MethodId) : Except AnalysisError StoredCfg := do
  return ofBody m (← p.requireBody m)

end StoredCfg
end ProgramAnalysis
