import ProgramAnalysis.Handle
/-!
Types of variables, fields and allocations.
-/
namespace ProgramAnalysis

inductive Prim where
  | boolean | byte | char | short | int | long | float | double | void
deriving DecidableEq, Repr

/-- `null` is the type of the null literal. -/
inductive Ty where
  | prim (p : Prim)
  | cls (c : ClassId)
  | array (elem : Ty)
  | null
deriving DecidableEq, Repr

namespace Ty

def int : Ty := .prim .int
def boolean : Ty := .prim .boolean

/-- Constants are tracked in 32 bits, so `long`, `float` and `double` hold none. -/
def holdsInt : Ty → Bool
  | .prim .boolean | .prim .byte | .prim .char | .prim .short | .prim .int => true
  | _ => false

def isReference : Ty → Bool
  | .prim _ => false
  | _ => true

def class? : Ty → Option ClassId
  | .cls c => some c
  | _ => none

end Ty
end ProgramAnalysis
