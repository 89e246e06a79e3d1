import ProgramAnalysis.Program.Hierarchy
import ProgramAnalysis.Table
/-!
The hierarchy as it is kept beside a program: one index for each kind of link, filled in a single
pass over the classes, and the walk down over the indexes.
-/
namespace ProgramAnalysis

/-- The direct subclasses, subinterfaces and implementors of the classes that have any. -/
structure HierarchyIndex where
  subclasses : Table ClassId (List ClassId)
  subinterfaces : Table ClassId (List ClassId)
  implementors : Table ClassId (List ClassId)

namespace HierarchyIndex

def empty : HierarchyIndex := ⟨.empty, .empty, .empty⟩

def filed (t : Table ClassId (List ClassId)) (s : ClassId) : List ClassId := (t.get? s).getD []

/-- Files `c` under each of the classes that it links to, once for each link. -/
def file (c : ClassId) (supers : List ClassId) (t : Table ClassId (List ClassId)) :
    Table ClassId (List ClassId) :=
  supers.foldl (fun t s => t.insert s (filed t s ++ [c])) t

/-- An interface is a subinterface of its interfaces, any other class an implementor. -/
def addClass (h : HierarchyIndex) (c : ClassId) (d : ClassDecl) : HierarchyIndex :=
  let h := { h with subclasses := file c d.superclass.toList h.subclasses }
  if d.isInterface then { h with subinterfaces := file c d.interfaces h.subinterfaces }
  else { h with implementors := file c d.interfaces h.implementors }

def ofClasses (classes : List ClassDecl) : HierarchyIndex :=
  classes.zipIdx.foldl (fun h e => h.addClass ⟨e.2⟩ e.1) empty

def subclassesOf (h : HierarchyIndex) (c : ClassId) : List ClassId := filed h.subclasses c

def subinterfacesOf (h : HierarchyIndex) (c : ClassId) : List ClassId := filed h.subinterfaces c

def implementorsOf (h : HierarchyIndex) (c : ClassId) : List ClassId := filed h.implementors c

def below (h : HierarchyIndex) (c : ClassId) : List ClassId :=
  h.subclassesOf c ++ h.subinterfacesOf c ++ h.implementorsOf c

def filedCount (t : Table ClassId (List ClassId)) : Nat := total (t.entries.map (·.2.length))

def linkCount (h : HierarchyIndex) : Nat :=
  filedCount h.subclasses + filedCount h.subinterfaces + filedCount h.implementors

/-- `c` first, then every class below it, breadth first. -/
def subtypes (h : HierarchyIndex) (c : ClassId) : List ClassId :=
  Program.walkDown h.below (h.linkCount + 2) [c] []

end HierarchyIndex

def Program.hierarchy (p : Program) : HierarchyIndex := .ofClasses p.classes.toList

end ProgramAnalysis
