import ProgramAnalysis.Error
import ProgramAnalysis.HandleSet
import ProgramAnalysis.PointsTo.Pointer
/-!
The pointer flow graph: a node per pointer with the objects it may refer to, and edges along which
objects flow. Nothing is removed.

Of the store that the graph is kept in, two things are taken for granted: it numbers nodes from 0 in
the order in which they are added, and it lists the successors of a node newest edge first. The first
makes a node's number its place in `nodes`, the second is the order of `succs`.
-/
namespace ProgramAnalysis

abbrev ObjSet := HandleSet ObjId

structure PointerNode where
  pointer : Pointer
  objects : ObjSet
deriving DecidableEq

structure PointerGraph where
  nodes : Array PointerNode
  edges : Array (Nat × Nat)
deriving DecidableEq

namespace PointerGraph

def empty : PointerGraph := ⟨#[], #[]⟩

def lookup? (g : PointerGraph) (pointer : Pointer) : Option Nat :=
  g.nodes.findIdx? fun n => n.pointer == pointer

/-- The node of a pointer, created on first request. -/
def intern (g : PointerGraph) (pointer : Pointer) : Nat × PointerGraph :=
  match g.lookup? pointer with
  | some n => (n, g)
  | none => (g.nodes.size, { g with nodes := g.nodes.push ⟨pointer, .empty⟩ })

def pointer? (g : PointerGraph) (n : Nat) : Option Pointer := g.nodes[n]?.map (·.pointer)

def objects (g : PointerGraph) (n : Nat) : ObjSet := (g.nodes[n]?.map (·.objects)).getD .empty

def addObjects (g : PointerGraph) (n : Nat) (delta : ObjSet) : PointerGraph :=
  { g with nodes := g.nodes.modify n fun d => { d with objects := d.objects.union delta } }

def hasEdge (g : PointerGraph) (source target : Nat) : Bool := g.edges.contains (source, target)

/-- No change if the edge is there already. -/
def addEdge (g : PointerGraph) (source target : Nat) : PointerGraph :=
  if g.hasEdge source target then g else { g with edges := g.edges.push (source, target) }

def hasNode (g : PointerGraph) (n : Nat) : Bool := n < g.nodes.size

/-- Whether the edge is new, and the graph with it; a new edge needs both its nodes. -/
def linkNodes (g : PointerGraph) (source target : Nat) :
    Except AnalysisError (Bool × PointerGraph) :=
  if g.hasEdge source target then .ok (false, g)
  else if g.hasNode source && g.hasNode target then .ok (true, g.addEdge source target)
  else .error .danglingHandle

/-- The most recently added first. -/
def succs (g : PointerGraph) (n : Nat) : List Nat :=
  ((g.edges.toList.filter fun e => e.1 == n).map (·.2)).reverse

/-- Empty for a pointer without a node. -/
def pointsTo (g : PointerGraph) (pointer : Pointer) : ObjSet :=
  match g.lookup? pointer with
  | some n => g.objects n
  | none => .empty

end PointerGraph
end ProgramAnalysis
