/-!
Handles: typed indices into the arenas of a program.

An index is a natural number without a bound. Where indices are stored in 32 bits, this assumes that
nothing that is numbered has 2 ^ 32 entries: no arena of a program, and no heap or pointer graph of a
run.
-/
namespace ProgramAnalysis

/-- Handles are told apart, and ordered, by their index. -/
class Handle (α : Type) where
  index : α → Nat
  index_injective : ∀ {a b : α}, index a = index b → a = b

structure ClassId where
  index : Nat
deriving DecidableEq, Repr, Inhabited

structure MethodId where
  index : Nat
deriving DecidableEq, Repr, Inhabited

structure FieldId where
  index : Nat
deriving DecidableEq, Repr, Inhabited

/-- Variables are unique across a program, so a variable needs no method beside it. -/
structure VarId where
  index : Nat
deriving DecidableEq, Repr, Inhabited

/-- An abstract heap object. -/
structure ObjId where
  index : Nat
deriving DecidableEq, Repr, Inhabited

instance : Handle ClassId := ⟨ClassId.index, fun {a b} h => by cases a; cases b; simp_all⟩
instance : Handle MethodId := ⟨MethodId.index, fun {a b} h => by cases a; cases b; simp_all⟩
instance : Handle FieldId := ⟨FieldId.index, fun {a b} h => by cases a; cases b; simp_all⟩
instance : Handle VarId := ⟨VarId.index, fun {a b} h => by cases a; cases b; simp_all⟩
instance : Handle ObjId := ⟨ObjId.index, fun {a b} h => by cases a; cases b; simp_all⟩
instance : Handle Nat := ⟨id, id⟩

def ClassId.text (c : ClassId) : String := s!"c{c.index}"
def MethodId.text (m : MethodId) : String := s!"m{m.index}"
def FieldId.text (f : FieldId) : String := s!"f{f.index}"
def VarId.text (v : VarId) : String := s!"v{v.index}"
def ObjId.text (o : ObjId) : String := s!"o{o.index}"

/-- The `index`-th statement of a method's body: a call site or an allocation site. -/
structure StmtRef where
  method : MethodId
  index : Nat
deriving DecidableEq, Repr, Inhabited

def StmtRef.text (s : StmtRef) : String := s!"{s.method.text}@{s.index}"

end ProgramAnalysis
