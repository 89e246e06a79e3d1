import ProgramAnalysis.Ir.Type
/-!
Three-address statements: what they define, what they read and where they jump.
-/
namespace ProgramAnalysis

inductive BinOp where
  | add | sub | mul | div | rem
  | eq | ne | lt | gt | le | ge
  | shl | shr | ushr
  | and | or | xor
deriving DecidableEq, Repr

namespace BinOp

def isDivision : BinOp → Bool
  | .div | .rem => true
  | _ => false

def isComparison : BinOp → Bool
  | .eq | .ne | .lt | .gt | .le | .ge => true
  | _ => false

def symbol : BinOp → String
  | .add => "+" | .sub => "-" | .mul => "*" | .div => "/" | .rem => "%"
  | .eq => "==" | .ne => "!=" | .lt => "<" | .gt => ">" | .le => "<=" | .ge => ">="
  | .shl => "<<" | .shr => ">>" | .ushr => ">>>"
  | .and => "&" | .or => "|" | .xor => "^"

end BinOp

/-- `lhs op rhs`. -/
structure Binary where
  op : BinOp
  lhs : VarId
  rhs : VarId
deriving DecidableEq, Repr

/-- Right-hand sides of assignments. A `field` without a base is a static field. -/
inductive Expr where
  | var (v : VarId)
  | int (n : Int32)
  | null
  | binary (b : Binary)
  | neg (v : VarId)
  | cast (ty : Ty) (v : VarId)
  | instanceOf (v : VarId) (ty : Ty)
  | new (ty : Ty)
  | field (base : Option VarId) (field : FieldId)
  | element (base index : VarId)
  | length (v : VarId)
deriving DecidableEq

def Expr.vars : Expr → List VarId
  | .var v | .neg v | .length v | .cast _ v | .instanceOf v _ => [v]
  | .binary b => [b.lhs, b.rhs]
  | .field base _ => base.toList
  | .element base index => [base, index]
  | .int _ | .null | .new _ => []

/-- Targets of stores. -/
inductive Place where
  | field (base : Option VarId) (field : FieldId)
  | element (base index : VarId)
deriving DecidableEq

def Place.vars : Place → List VarId
  | .field base _ => base.toList
  | .element base index => [base, index]

inductive CallKind where
  | static | special | virtual | interface | dynamic
deriving DecidableEq, Repr

def CallKind.label : CallKind → String
  | .static => "STATIC"
  | .special => "SPECIAL"
  | .virtual => "VIRTUAL"
  | .interface => "INTERFACE"
  | .dynamic => "DYNAMIC"

/-- A method named by the class where the search for it starts. -/
structure MethodRef where
  cls : ClassId
  subsignature : String
deriving DecidableEq

structure Call where
  kind : CallKind
  target : MethodRef
  receiver : Option VarId
  args : List VarId
deriving DecidableEq

/-- Jump targets are statement indices in the same body. -/
inductive Stmt where
  | assign (lhs : VarId) (rhs : Expr)
  | store (target : Place) (rhs : VarId)
  | invoke (lhs : Option VarId) (call : Call)
  | branch (cond : Binary) (target : Nat)
  | goto (target : Nat)
  | switch (var : VarId) (cases : List (Int32 × Nat)) (default : Nat)
  | ret (value : Option VarId)
  | nop
deriving DecidableEq

namespace Stmt

def def? : Stmt → Option VarId
  | .assign lhs _ => some lhs
  | .invoke lhs _ => lhs
  | _ => none

def uses : Stmt → List VarId
  | .assign _ rhs => rhs.vars
  | .store target rhs => target.vars ++ [rhs]
  | .invoke _ call => call.receiver.toList ++ call.args
  | .branch cond _ => [cond.lhs, cond.rhs]
  | .switch var _ _ => [var]
  | .ret value => value.toList
  | .goto _ | .nop => []

def isDefinition (s : Stmt) : Bool := s.def?.isSome

/-- Falling through to the next statement is no jump. -/
def jumpTargets : Stmt → List Nat
  | .branch _ target | .goto target => [target]
  | .switch _ cases default => cases.map (·.2) ++ [default]
  | _ => []

def call? : Stmt → Option Call
  | .invoke _ call => some call
  | _ => none

end Stmt
end ProgramAnalysis
