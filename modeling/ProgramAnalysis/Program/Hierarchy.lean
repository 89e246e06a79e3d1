import ProgramAnalysis.Count
import ProgramAnalysis.Program.Basic
/-!
The class hierarchy: subtypes by walking down, supertypes by walking up, and method lookup along
the chain of superclasses. Each walk visits a class once, so cycles end it.
-/
namespace ProgramAnalysis.Program

def links (p : Program) (f : ClassDecl → List ClassId) (c : ClassId) : List ClassId :=
  p.classes.toList.zipIdx.flatMap fun (d, i) => ((f d).filter (· == c)).map fun _ => ⟨i⟩

/-- The classes with `c` as superclass, in order of declaration. -/
def subclasses (p : Program) (c : ClassId) : List ClassId := p.links (·.superclass.toList) c

def subinterfaces (p : Program) (c : ClassId) : List ClassId :=
  p.links (fun d => if d.isInterface then d.interfaces else []) c

def implementors (p : Program) (c : ClassId) : List ClassId :=
  p.links (fun d => if d.isInterface then [] else d.interfaces) c

def below (p : Program) (c : ClassId) : List ClassId :=
  p.subclasses c ++ p.subinterfaces c ++ p.implementors c

/-- Breadth first; a class already seen is dropped when its turn comes. -/
def walkDown (below : ClassId → List ClassId) :
    Nat → List ClassId → List ClassId → List ClassId
  | 0, _, seen => seen
  | _ + 1, [], seen => seen
  | fuel + 1, c :: queue, seen =>
    if c ∈ seen then walkDown below fuel queue seen
    else walkDown below fuel (queue ++ below c) (seen ++ [c])

/-- The links of all classes to their superclasses and interfaces. -/
def linkCount (p : Program) : Nat :=
  total (p.classes.toList.map fun d => d.superclass.toList.length + d.interfaces.length)

/-- `c` first, then every class below it, breadth first. -/
def subtypes (p : Program) (c : ClassId) : List ClassId :=
  walkDown p.below (p.linkCount + 2) [c] []

def above (d : ClassDecl) : List ClassId := d.superclass.toList ++ d.interfaces

def walkUp (p : Program) (target : ClassId) :
    Nat → List ClassId → List ClassId → Except AnalysisError Bool
  | 0, _, _ => .ok false
  | _ + 1, [], _ => .ok false
  | fuel + 1, c :: queue, seen =>
    if c = target then .ok true
    else if c ∈ seen then p.walkUp target fuel queue seen
    else do
      let d ← p.getClass c
      p.walkUp target fuel (queue ++ above d) (c :: seen)

def isSubtype (p : Program) (sub sup : ClassId) : Except AnalysisError Bool :=
  p.walkUp sup (p.linkCount + 2) [sub] []

/-- The first method of that subsignature on the chain of superclasses that `accept` takes. -/
def lookupFrom (p : Program) (subsignature : String) (accept : MethodDecl → Bool) :
    Nat → Option ClassId → List ClassId → Except AnalysisError (Option MethodId)
  | 0, _, _ => .ok none
  | _ + 1, none, _ => .ok none
  | fuel + 1, some c, seen =>
    if c ∈ seen then .ok none
    else do
      let d ← p.getClass c
      match d.declared? subsignature with
      | none => p.lookupFrom subsignature accept fuel d.superclass (c :: seen)
      | some m =>
        if accept (← p.getMethod m) then return some m
        else p.lookupFrom subsignature accept fuel d.superclass (c :: seen)

/-- The method that runs on a receiver of class `c`: abstract declarations are passed over. -/
def dispatch (p : Program) (c : ClassId) (subsignature : String) :
    Except AnalysisError (Option MethodId) :=
  p.lookupFrom subsignature (fun m => !m.isAbstract) (p.classes.size + 2) (some c) []

/-- The method that a static reference names, abstract or not. -/
def resolve (p : Program) (c : ClassId) (subsignature : String) :
    Except AnalysisError (Option MethodId) :=
  p.lookupFrom subsignature (fun _ => true) (p.classes.size + 2) (some c) []

end ProgramAnalysis.Program
