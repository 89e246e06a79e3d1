import ProgramAnalysis.Handle
/-!
Flow graphs: nodes, labelled edges, and for each entry method its first and last node.
-/
namespace ProgramAnalysis

structure Edge (ν ε : Type) where
  source : ν
  target : ν
  label : ε
deriving DecidableEq

structure Graph (ν ε : Type) where
  nodes : List ν
  edges : List (Edge ν ε)
  ends : List (ν × ν)

namespace Graph

variable {ν ε : Type} [DecidableEq ν]

def edgesInto (g : Graph ν ε) (n : ν) : List (Edge ν ε) := g.edges.filter fun e => e.target = n

def edgesFrom (g : Graph ν ε) (n : ν) : List (Edge ν ε) := g.edges.filter fun e => e.source = n

def preds (g : Graph ν ε) (n : ν) : List ν := (g.edgesInto n).map (·.source)

def succs (g : Graph ν ε) (n : ν) : List ν := (g.edgesFrom n).map (·.target)

end Graph

/-- A place in a method: before its first statement, at a statement, or after all returns. -/
inductive Point where
  | entry
  | stmt (i : Nat)
  | exit
deriving DecidableEq, Repr

structure Node where
  method : MethodId
  point : Point
deriving DecidableEq, Repr

namespace Node

def entry (m : MethodId) : Node := ⟨m, .entry⟩
def stmt (m : MethodId) (i : Nat) : Node := ⟨m, .stmt i⟩
def exit (m : MethodId) : Node := ⟨m, .exit⟩

def ofStmtRef (s : StmtRef) : Node := stmt s.method s.index

def stmtIndex? (n : Node) : Option Nat :=
  match n.point with
  | .stmt i => some i
  | _ => none

def text (n : Node) : String :=
  match n.point with
  | .entry => s!"{n.method.text}:entry"
  | .stmt i => s!"{n.method.text}:{i}"
  | .exit => s!"{n.method.text}:exit"

end Node

/-- How control moves within a method. -/
inductive Flow where
  | entry
  | fallThrough
  | goto
  | ifTrue
  | ifFalse
  | switchCase (value : Int32)
  | switchDefault
  | ret
deriving DecidableEq

/-- `callToReturn` passes a callee by; `call` and `ret` go through it. -/
inductive EdgeKind where
  | within (flow : Flow)
  | callToReturn
  | call
  | ret
deriving DecidableEq

/-- `site` is the call that an edge belongs to; edges within a method have none. -/
structure EdgeLabel where
  kind : EdgeKind
  site : Option Node
deriving DecidableEq

abbrev FlowEdge := Edge Node EdgeLabel
abbrev FlowGraph := Graph Node EdgeLabel

def Edge.within (source target : Node) (flow : Flow) : FlowEdge :=
  ⟨source, target, ⟨.within flow, none⟩⟩

end ProgramAnalysis
