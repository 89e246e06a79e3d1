import ProgramAnalysis.Ir.Stmt
/-!
The constant lattice: `undef` below every constant, `nac` ("not a constant") above all; and
arithmetic on it.
-/
namespace ProgramAnalysis

inductive Value where
  | undef
  | constant (n : Int32)
  | nac
deriving DecidableEq

namespace Value

def isUndef : Value → Bool
  | .undef => true
  | _ => false

def isNac : Value → Bool
  | .nac => true
  | _ => false

def constant? : Value → Option Int32
  | .constant n => some n
  | _ => none

def text : Value → String
  | .undef => "UNDEF"
  | .constant n => toString n.toInt
  | .nac => "NAC"

/-- The least value above both. -/
def meet : Value → Value → Value
  | .nac, _ | _, .nac => .nac
  | .undef, v | v, .undef => v
  | .constant m, .constant n => if m = n then .constant m else .nac

def ofBool (b : Bool) : Int32 := if b then 1 else 0

/-- Arithmetic wraps to 32 bits, division truncates, and shifts take the distance modulo 32. -/
def apply (op : BinOp) (m n : Int32) : Int32 :=
  match op with
  | .add => m + n
  | .sub => m - n
  | .mul => m * n
  | .div => m / n
  | .rem => m % n
  | .eq => ofBool (m == n)
  | .ne => ofBool (m != n)
  | .lt => ofBool (m < n)
  | .gt => ofBool (n < m)
  | .le => ofBool (m ≤ n)
  | .ge => ofBool (n ≤ m)
  | .shl => m <<< n
  | .shr => m >>> n
  | .ushr => (m.toUInt32 >>> n.toUInt32).toInt32
  | .and => m &&& n
  | .or => m ||| n
  | .xor => m ^^^ n

/-- As `apply`, where quotients and remainders by zero do not exist. -/
def compute? (op : BinOp) (m n : Int32) : Option Int32 :=
  match op with
  | .div | .rem => if n = 0 then none else some (apply op m n)
  | _ => some (apply op m n)

/-- Division by a known zero has no value, whatever is divided. -/
def evalBinary (op : BinOp) (a b : Value) : Value :=
  if op.isDivision && b == .constant 0 then .undef
  else match a, b with
    | .nac, _ | _, .nac => .nac
    | .constant m, .constant n => .constant (apply op m n)
    | _, _ => .undef

def evalBinary? (op : BinOp) (a b : Value) : Option Value :=
  -- The divisor is looked at first, so that what has no quotient is not divided.
  if op.isDivision && b == .constant 0 then some .undef
  else match a, b with
    | .nac, _ | _, .nac => some .nac
    | .constant m, .constant n => (compute? op m n).map .constant
    | _, _ => some .undef

end Value
end ProgramAnalysis
