import ProgramAnalysis.Ir.Stmt
import ProgramAnalysis.HandleMap
/-!
Method bodies, and the index of the statements that go through a variable.
-/
namespace ProgramAnalysis

/-- Statement indices where a variable is the base of an access or the receiver of a call. -/
structure UseSites where
  fieldStores : List Nat
  fieldLoads : List Nat
  elementStores : List Nat
  elementLoads : List Nat
  invokes : List Nat
deriving DecidableEq

namespace UseSites

def empty : UseSites := ⟨[], [], [], [], []⟩

def addFieldStore (s : UseSites) (i : Nat) : UseSites :=
  { s with fieldStores := s.fieldStores ++ [i] }
def addFieldLoad (s : UseSites) (i : Nat) : UseSites := { s with fieldLoads := s.fieldLoads ++ [i] }
def addElementStore (s : UseSites) (i : Nat) : UseSites :=
  { s with elementStores := s.elementStores ++ [i] }
def addElementLoad (s : UseSites) (i : Nat) : UseSites :=
  { s with elementLoads := s.elementLoads ++ [i] }
def addInvoke (s : UseSites) (i : Nat) : UseSites := { s with invokes := s.invokes ++ [i] }

end UseSites

/-- A variable without an entry is never a base or a receiver. -/
abbrev UseIndex := HandleMap VarId UseSites

namespace UseIndex

def record (index : UseIndex) (v : VarId) (add : UseSites → UseSites) : UseIndex :=
  index.insert v (add ((index.get? v).getD .empty))

def addStmt (index : UseIndex) (i : Nat) : Stmt → UseIndex
  | .assign _ (.field (some base) _) => index.record base (·.addFieldLoad i)
  | .assign _ (.element base _) => index.record base (·.addElementLoad i)
  | .store (.field (some base) _) _ => index.record base (·.addFieldStore i)
  | .store (.element base _) _ => index.record base (·.addElementStore i)
  | .invoke _ { receiver := some v, .. } => index.record v (·.addInvoke i)
  | _ => index

def addFrom (index : UseIndex) (i : Nat) : List Stmt → UseIndex
  | [] => index
  | s :: rest => addFrom (index.addStmt i s) (i + 1) rest

def ofStmts (stmts : List Stmt) : UseIndex := addFrom HandleMap.empty 0 stmts

end UseIndex

structure Body where
  this : Option VarId
  params : List VarId
  stmts : Array Stmt
deriving DecidableEq

namespace Body

def stmt? (b : Body) (i : Nat) : Option Stmt := b.stmts[i]?

def size (b : Body) : Nat := b.stmts.size

def isEmpty (b : Body) : Bool := b.stmts.isEmpty

/-- Statements with their indices, in order. -/
def indexed (b : Body) : List (Nat × Stmt) := b.stmts.toList.zipIdx.map fun (s, i) => (i, s)

def addReturn (seen : List VarId) : Stmt → List VarId
  | .ret (some v) => if v ∈ seen then seen else seen ++ [v]
  | _ => seen

/-- Each returned variable once, in the order of first return. -/
def returnVars (b : Body) : List VarId := b.stmts.foldl addReturn []

def useIndex (b : Body) : UseIndex := UseIndex.ofStmts b.stmts.toList

def usesOf (b : Body) (v : VarId) : Option UseSites := b.useIndex.get? v

/-- Every call with its index and the variable that takes its result. -/
def calls (b : Body) : List (Nat × Option VarId × Call) :=
  b.indexed.filterMap fun
    | (i, .invoke lhs call) => some (i, lhs, call)
    | _ => none

def callSites (b : Body) : List Nat := b.calls.map (·.1)

end Body
end ProgramAnalysis
