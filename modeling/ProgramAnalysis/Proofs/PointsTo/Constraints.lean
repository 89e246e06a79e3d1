import Mathlib.Order.Bounds.Defs
import Mathlib.Data.Set.Defs
import ProgramAnalysis.PointsTo.Solver
import ProgramAnalysis.Proofs.Program.Accepted

/-! The inclusion constraints of a points-to problem, without a solver: what it means for points-to
sets, call edges and reachable methods together to satisfy every statement of every reachable
method. Objects are what the heap model keeps of an allocation. A state of the solver is read as
such `Facts`. -/
namespace ProgramAnalysis.PointsTo

/-- What a heap model tells allocations apart by, with the type that dispatch reads. -/
structure AbstractObject where
  site : Option StmtRef
  ty : Ty
deriving DecidableEq

def abstractObject (model : HeapModel) (site : StmtRef) (ty : Ty) : AbstractObject :=
  match model with
  | .allocationSite => ⟨some site, ty⟩
  | .typeBased => ⟨none, ty⟩

inductive Location where
  | var (v : VarId)
  | staticField (f : FieldId)
  | instanceField (o : AbstractObject) (f : FieldId)
  | elements (o : AbstractObject)
deriving DecidableEq

structure Facts where
  pointsTo : Location → Set AbstractObject
  edges : Set CallEdge
  reachable : Set MethodId

instance : LE Facts where
  le S T := (∀ l, S.pointsTo l ⊆ T.pointsTo l) ∧ S.edges ⊆ T.edges ∧ S.reachable ⊆ T.reachable

/-- The class whose methods an object of a type has: arrays have those of the root class. -/
def receiverClass? (p : Program) : Ty → Option ClassId
  | .cls c => some c
  | .array _ => p.root
  | .prim _ | .null => none

/-- `m` is what `call` runs on a receiver of type `ty`. -/
inductive RunsOn (p : Program) (call : Call) (ty : Ty) (m : MethodId) : Prop
  | static : call.kind = .static →
      p.resolve call.target.cls call.target.subsignature = .ok (some m) → RunsOn p call ty m
  | special : call.kind = .special →
      p.dispatch call.target.cls call.target.subsignature = .ok (some m) → RunsOn p call ty m
  | onClass {c : ClassId} : call.kind = .virtual ∨ call.kind = .interface →
      receiverClass? p ty = some c →
      p.dispatch c call.target.subsignature = .ok (some m) → RunsOn p call ty m

namespace Facts

/-- What a call that runs `m` demands: an edge, a reachable callee, and that arguments flow to
parameters and returned variables to the result. -/
structure Linked (p : Program) (S : Facts) (site : StmtRef) (result : Option VarId) (call : Call)
    (m : MethodId) : Prop where
  edge : ⟨call.kind, site, m⟩ ∈ S.edges
  reachable : m ∈ S.reachable
  argument : ∀ {b a x}, p.body? m = some b → (a, x) ∈ call.args.zip b.params →
    S.pointsTo (.var a) ⊆ S.pointsTo (.var x)
  returned : ∀ {b x i r}, p.body? m = some b → result = some x →
    b.stmt? i = some (.ret (some r)) → S.pointsTo (.var r) ⊆ S.pointsTo (.var x)

variable (q : Problem) (S : Facts)

def StmtHolds (site : StmtRef) : Stmt → Prop
  | .assign x (.new ty) => abstractObject q.model site ty ∈ S.pointsTo (.var x)
  | .assign x (.var y) => S.pointsTo (.var y) ⊆ S.pointsTo (.var x)
  | .assign x (.field none f) => S.pointsTo (.staticField f) ⊆ S.pointsTo (.var x)
  | .assign x (.field (some y) f) =>
    ∀ o ∈ S.pointsTo (.var y), S.pointsTo (.instanceField o f) ⊆ S.pointsTo (.var x)
  | .assign x (.element y _) =>
    ∀ o ∈ S.pointsTo (.var y), S.pointsTo (.elements o) ⊆ S.pointsTo (.var x)
  | .store (.field none f) y => S.pointsTo (.var y) ⊆ S.pointsTo (.staticField f)
  | .store (.field (some x) f) y =>
    ∀ o ∈ S.pointsTo (.var x), S.pointsTo (.var y) ⊆ S.pointsTo (.instanceField o f)
  | .store (.element x _) y =>
    ∀ o ∈ S.pointsTo (.var x), S.pointsTo (.var y) ⊆ S.pointsTo (.elements o)
  | .invoke result call =>
    (call.kind = .static →
      ∀ m, q.program.resolve call.target.cls call.target.subsignature = .ok (some m) →
        Linked q.program S site result call m) ∧
    ∀ x, call.receiver = some x → ∀ o ∈ S.pointsTo (.var x), ∀ m, RunsOn q.program call o.ty m →
      Linked q.program S site result call m ∧
      ∀ b this, q.program.body? m = some b → b.this = some this → o ∈ S.pointsTo (.var this)
  | _ => True

/-- The constraints of a problem with the given entry. -/
structure Satisfies (entry : MethodId) : Prop where
  entry : entry ∈ S.reachable
  stmt : ∀ {site s}, site.method ∈ S.reachable → q.program.stmt? site = some s →
    StmtHolds q S site s

end Facts
end ProgramAnalysis.PointsTo

namespace ProgramAnalysis

open PointsTo

namespace Heap

variable (model : HeapModel) (h : Heap)

def abstract? (o : ObjId) : Option AbstractObject :=
  (h.object? o).map fun x => abstractObject model x.site x.ty

def location? : Pointer → Option Location
  | .var v => some (.var v)
  | .staticField f => some (.staticField f)
  | .instanceField o f => (h.abstract? model o).map fun a => .instanceField a f
  | .elements o => (h.abstract? model o).map fun a => .elements a

end Heap

namespace PointsTo.State

/-- What a state says about abstract objects. -/
def facts (model : HeapModel) (s : State) : Facts where
  pointsTo l := {a | ∃ pointer o, s.heap.location? model pointer = some l ∧
    s.heap.abstract? model o = some a ∧ o ∈ s.graph.pointsTo pointer}
  edges := {e | e ∈ s.calls.edges}
  reachable := {m | m ∈ s.calls.reachable}

/-- Nothing is lost in `facts`: objects differ in what the heap model keeps, and every points-to
fact concerns objects of the heap. -/
structure Faithful (model : HeapModel) (s : State) : Prop where
  injective : ∀ {o o' a}, s.heap.abstract? model o = some a → s.heap.abstract? model o' = some a →
    o = o'
  named : ∀ {pointer o}, o ∈ s.graph.pointsTo pointer →
    (∃ l, s.heap.location? model pointer = some l) ∧ ∃ a, s.heap.abstract? model o = some a

end PointsTo.State
end ProgramAnalysis
