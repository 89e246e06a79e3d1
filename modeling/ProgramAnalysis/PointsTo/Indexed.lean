import ProgramAnalysis.PointsTo.FlowGraph
import ProgramAnalysis.PointsTo.Heap
import ProgramAnalysis.Table
/-!
Heaps and pointer flow graphs that find what they hold through a map: the object for a site or a type,
the node of a pointer. Objects, pointers and points-to sets are in arrays by number, so that what a
map gives is a place in an array. Nodes of the graph are numbered by its store, as assumed of that in
`PointerGraph`: from 0, in the order in which they are added.
-/
namespace ProgramAnalysis

namespace HeapModel

/-- What allocations are told apart by. -/
def AllocationKey : HeapModel → Type
  | .allocationSite => StmtRef
  | .typeBased => Ty

instance : (model : HeapModel) → DecidableEq model.AllocationKey
  | .allocationSite => inferInstanceAs (DecidableEq StmtRef)
  | .typeBased => inferInstanceAs (DecidableEq Ty)

def allocationKey : (model : HeapModel) → StmtRef → Ty → model.AllocationKey
  | .allocationSite, site, _ => site
  | .typeBased, _, ty => ty

end HeapModel

structure IndexedHeap (model : HeapModel) where
  heap : Heap
  objectOf : Table model.AllocationKey ObjId

namespace IndexedHeap

variable {model : HeapModel}

def empty : IndexedHeap model := ⟨.empty, .empty⟩

def object? (h : IndexedHeap model) (o : ObjId) : Option HeapObject := h.heap.object? o

/-- The object of the allocation's key, created on first use. -/
def allocate (h : IndexedHeap model) (site : StmtRef) (ty : Ty) : ObjId × IndexedHeap model :=
  match h.objectOf.get? (model.allocationKey site ty) with
  | some o => (o, h)
  | none =>
    let (o, heap) := h.heap.create site ty
    (o, ⟨heap, h.objectOf.insert (model.allocationKey site ty) o⟩)

end IndexedHeap

structure IndexedPointerGraph where
  pointers : Array Pointer
  edges : Array (Nat × Nat)
  sets : Array ObjSet
  nodeOf : Table Pointer Nat

namespace IndexedPointerGraph

def empty : IndexedPointerGraph := ⟨#[], #[], #[], .empty⟩

def lookup? (g : IndexedPointerGraph) (pointer : Pointer) : Option Nat := g.nodeOf.get? pointer

def intern (g : IndexedPointerGraph) (pointer : Pointer) : Nat × IndexedPointerGraph :=
  match g.lookup? pointer with
  | some n => (n, g)
  | none =>
    let n := g.pointers.size
    (n, { g with
      pointers := g.pointers.push pointer
      sets := g.sets.push .empty
      nodeOf := g.nodeOf.insert pointer n })

def pointer? (g : IndexedPointerGraph) (n : Nat) : Option Pointer := g.pointers[n]?

def objects? (g : IndexedPointerGraph) (n : Nat) : Option ObjSet := g.sets[n]?

def addObjects (g : IndexedPointerGraph) (n : Nat) (delta : ObjSet) : IndexedPointerGraph :=
  { g with sets := g.sets.modify n (·.union delta) }

def hasEdge (g : IndexedPointerGraph) (source target : Nat) : Bool :=
  g.edges.contains (source, target)

/-- No change if the edge is there already. -/
def addEdge (g : IndexedPointerGraph) (source target : Nat) : IndexedPointerGraph :=
  if g.hasEdge source target then g else { g with edges := g.edges.push (source, target) }

def hasNode (g : IndexedPointerGraph) (n : Nat) : Bool := n < g.pointers.size

/-- Whether the edge is new, and the graph with it; a new edge needs both its nodes. -/
def linkNodes (g : IndexedPointerGraph) (source target : Nat) :
    Except AnalysisError (Bool × IndexedPointerGraph) :=
  if g.hasEdge source target then .ok (false, g)
  else if g.hasNode source && g.hasNode target then .ok (true, g.addEdge source target)
  else .error .danglingHandle

end IndexedPointerGraph
end ProgramAnalysis
