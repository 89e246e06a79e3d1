import ProgramAnalysis.Constant.Value
import ProgramAnalysis.HandleMap
/-!
Facts of constant propagation: a value for every variable, `undef` for all but finitely many. Two
facts are equal exactly when they give every variable the same value.
-/
namespace ProgramAnalysis

/-- A value that tells something. -/
inductive Known where
  | constant (n : Int32)
  | nac
deriving DecidableEq

def Known.value : Known → Value
  | .constant n => .constant n
  | .nac => .nac

def Value.known? : Value → Option Known
  | .undef => none
  | .constant n => some (.constant n)
  | .nac => some .nac

structure Fact where
  known : HandleMap VarId Known
deriving DecidableEq

namespace Fact

def empty : Fact := ⟨.empty⟩

def get (f : Fact) (v : VarId) : Value :=
  match f.known.get? v with
  | none => .undef
  | some k => k.value

def set (f : Fact) (v : VarId) (value : Value) : Fact :=
  match value.known? with
  | none => ⟨f.known.erase v⟩
  | some k => ⟨f.known.insert v k⟩

def erase (f : Fact) (v : VarId) : Fact := ⟨f.known.erase v⟩

/-- The variables that are not `undef`, in order. -/
def toList (f : Fact) : List (VarId × Value) := f.known.toList.map fun (v, k) => (v, k.value)

def size (f : Fact) : Nat := f.known.size

def isEmpty (f : Fact) : Bool := f.known.isEmpty

/-- A later value of a variable replaces an earlier one. -/
def ofList (xs : List (VarId × Value)) : Fact := xs.foldl (fun f (v, value) => f.set v value) empty

/-- `f` taken into `target`, variable by variable. -/
def meet (f target : Fact) : Fact :=
  f.toList.foldl (fun t (v, value) => t.set v (value.meet (t.get v))) target

end Fact
end ProgramAnalysis
