import ProgramAnalysis.Config.Basic
import ProgramAnalysis.Ir.Type
/-!
Abstract heaps: which object stands for an allocation.
-/
namespace ProgramAnalysis

/-- An object keeps the first allocation that it stands for. -/
structure HeapObject where
  id : ObjId
  site : StmtRef
  ty : Ty
deriving DecidableEq

def HeapObject.text (o : HeapObject) : String := s!"{o.id.text}[new@{o.site.text}]"

namespace HeapModel

/-- Whether an object of this site and type stands for an allocation of that site and type. -/
def identifies (model : HeapModel) (o : HeapObject) (site : StmtRef) (ty : Ty) : Bool :=
  match model with
  | .allocationSite => o.site == site
  | .typeBased => o.ty == ty

end HeapModel

/-- Objects are numbered from zero in the order of creation. -/
structure Heap where
  objects : Array HeapObject
deriving DecidableEq

namespace Heap

def empty : Heap := ⟨#[]⟩

def size (h : Heap) : Nat := h.objects.size

def object? (h : Heap) (o : ObjId) : Option HeapObject := h.objects[o.index]?

/-- A new object, whatever the heap holds. -/
def create (h : Heap) (site : StmtRef) (ty : Ty) : ObjId × Heap :=
  let o : ObjId := ⟨h.objects.size⟩
  (o, ⟨h.objects.push ⟨o, site, ty⟩⟩)

/-- The object that stands for an allocation, created on first use. -/
def allocate (model : HeapModel) (h : Heap) (site : StmtRef) (ty : Ty) : ObjId × Heap :=
  match h.objects.find? fun o => model.identifies o site ty with
  | some o => (o.id, h)
  | none => h.create site ty

end Heap
end ProgramAnalysis
