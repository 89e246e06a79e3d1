import ProgramAnalysis.Json.Basic
import ProgramAnalysis.Ir.Stmt
/-!
The JSON form of types, expressions and statements: a case of a union is its tag, or an object
with the tag over the content.
-/
namespace ProgramAnalysis

/-- Handles fit 32 bits. -/
def handleBound : Nat := 4294967296

/-- Statement indices and jump targets fit 64 bits. -/
def indexBound : Nat := 18446744073709551616

namespace ClassId
def toJson (c : ClassId) : Json := .nat c.index
def ofJson? (j : Json) : Option ClassId := (j.natBelow? handleBound).map mk
end ClassId

namespace MethodId
def toJson (m : MethodId) : Json := .nat m.index
def ofJson? (j : Json) : Option MethodId := (j.natBelow? handleBound).map mk
end MethodId

namespace FieldId
def toJson (f : FieldId) : Json := .nat f.index
def ofJson? (j : Json) : Option FieldId := (j.natBelow? handleBound).map mk
end FieldId

namespace VarId
def toJson (v : VarId) : Json := .nat v.index
def ofJson? (j : Json) : Option VarId := (j.natBelow? handleBound).map mk
end VarId

namespace StmtRef
def toJson (s : StmtRef) : Json := .obj [("method", s.method.toJson), ("index", .nat s.index)]
def ofJson? (j : Json) : Option StmtRef := do
  let [some m, some i] ← j.record? ["method", "index"] | none
  return ⟨← MethodId.ofJson? m, ← i.natBelow? indexBound⟩
end StmtRef

namespace Prim

def tag : Prim → String
  | .boolean => "Boolean" | .byte => "Byte" | .char => "Char" | .short => "Short" | .int => "Int"
  | .long => "Long" | .float => "Float" | .double => "Double" | .void => "Void"

def all : List Prim := [.boolean, .byte, .char, .short, .int, .long, .float, .double, .void]

def ofJson? (j : Json) : Option Prim := j.bareCase?.bind fun t => all.find? fun p => p.tag == t

end Prim

namespace Ty

def toJson : Ty → Json
  | .prim p => .tagged "Primitive" (.str p.tag)
  | .cls c => .tagged "Class" c.toJson
  | .array elem => .tagged "Array" elem.toJson
  | .null => .str "Null"

def ofJson? : Json → Option Ty
  | .str tag => if tag = "Null" then some .null else none
  | .obj [(tag, content)] =>
    if tag = "Primitive" then (Prim.ofJson? content).map .prim
    else if tag = "Class" then (ClassId.ofJson? content).map .cls
    else if tag = "Array" then (ofJson? content).map .array
    else if tag = "Null" then (match content with | .null => some .null | _ => none)
    else none
  | _ => none

end Ty

namespace BinOp

def tag : BinOp → String
  | .add => "Add" | .sub => "Sub" | .mul => "Mul" | .div => "Div" | .rem => "Rem"
  | .eq => "Eq" | .ne => "Ne" | .lt => "Lt" | .gt => "Gt" | .le => "Le" | .ge => "Ge"
  | .shl => "Shl" | .shr => "Shr" | .ushr => "Ushr"
  | .and => "And" | .or => "Or" | .xor => "Xor"

def all : List BinOp :=
  [.add, .sub, .mul, .div, .rem, .eq, .ne, .lt, .gt, .le, .ge, .shl, .shr, .ushr, .and, .or, .xor]

def toJson (op : BinOp) : Json := .str op.tag
def ofJson? (j : Json) : Option BinOp := j.bareCase?.bind fun t => all.find? fun op => op.tag == t

end BinOp

namespace Binary
def toJson (b : Binary) : Json :=
  .obj [("op", b.op.toJson), ("lhs", b.lhs.toJson), ("rhs", b.rhs.toJson)]
def ofJson? (j : Json) : Option Binary := do
  let [some op, some lhs, some rhs] ← j.record? ["op", "lhs", "rhs"] | none
  return ⟨← BinOp.ofJson? op, ← VarId.ofJson? lhs, ← VarId.ofJson? rhs⟩
end Binary

namespace Expr

def toJson : Expr → Json
  | .var v => .tagged "Var" v.toJson
  | .int n => .tagged "IntLiteral" (.int n.toInt)
  | .null => .str "NullLiteral"
  | .binary b => .tagged "Binary" b.toJson
  | .neg v => .tagged "Neg" v.toJson
  | .cast ty v => .tagged "Cast" (.obj [("ty", ty.toJson), ("var", v.toJson)])
  | .instanceOf v ty => .tagged "InstanceOf" (.obj [("var", v.toJson), ("ty", ty.toJson)])
  | .new ty => .tagged "New" ty.toJson
  | .field base f =>
    .tagged "FieldAccess" (.obj [("base", .option VarId.toJson base), ("field", f.toJson)])
  | .element base index =>
    .tagged "ArrayAccess" (.obj [("base", base.toJson), ("index", index.toJson)])
  | .length v => .tagged "ArrayLength" v.toJson

def ofContent? (content : Json) : String → Option Expr
  | "Var" => (VarId.ofJson? content).map .var
  | "IntLiteral" => content.int32?.map .int
  | "Binary" => (Binary.ofJson? content).map .binary
  | "Neg" => (VarId.ofJson? content).map .neg
  | "Cast" => do
    let [some ty, some v] ← content.members? ["ty", "var"] | none
    return .cast (← Ty.ofJson? ty) (← VarId.ofJson? v)
  | "InstanceOf" => do
    let [some v, some ty] ← content.members? ["var", "ty"] | none
    return .instanceOf (← VarId.ofJson? v) (← Ty.ofJson? ty)
  | "New" => (Ty.ofJson? content).map .new
  | "FieldAccess" => do
    let [base, some f] ← content.members? ["base", "field"] | none
    return .field (← Json.option? VarId.ofJson? base) (← FieldId.ofJson? f)
  | "ArrayAccess" => do
    let [some base, some index] ← content.members? ["base", "index"] | none
    return .element (← VarId.ofJson? base) (← VarId.ofJson? index)
  | "ArrayLength" => (VarId.ofJson? content).map .length
  | _ => none

def ofJson? (j : Json) : Option Expr :=
  if j.bareCase? = some "NullLiteral" then some .null
  else match j.case? with
    | some (tag, some content) => ofContent? content tag
    | _ => none

end Expr

namespace Place

def toJson : Place → Json
  | .field base f =>
    .tagged "Field" (.obj [("base", .option VarId.toJson base), ("field", f.toJson)])
  | .element base index =>
    .tagged "Array" (.obj [("base", base.toJson), ("index", index.toJson)])

def ofJson? (j : Json) : Option Place :=
  match j.case? with
  | some ("Field", some content) => do
    let [base, some f] ← content.members? ["base", "field"] | none
    return .field (← Json.option? VarId.ofJson? base) (← FieldId.ofJson? f)
  | some ("Array", some content) => do
    let [some base, some index] ← content.members? ["base", "index"] | none
    return .element (← VarId.ofJson? base) (← VarId.ofJson? index)
  | _ => none

end Place

namespace CallKind

def tag : CallKind → String
  | .static => "Static" | .special => "Special" | .virtual => "Virtual"
  | .interface => "Interface" | .dynamic => "Dynamic"

def all : List CallKind := [.static, .special, .virtual, .interface, .dynamic]

def toJson (k : CallKind) : Json := .str k.tag
def ofJson? (j : Json) : Option CallKind := j.bareCase?.bind fun t => all.find? fun k => k.tag == t

end CallKind

namespace MethodRef
def toJson (r : MethodRef) : Json :=
  .obj [("class", r.cls.toJson), ("subsignature", .str r.subsignature)]
def ofJson? (j : Json) : Option MethodRef := do
  let [some c, some s] ← j.record? ["class", "subsignature"] | none
  return ⟨← ClassId.ofJson? c, ← s.str?⟩
end MethodRef

namespace Call

def toJson (c : Call) : Json :=
  .obj [("kind", c.kind.toJson), ("method_ref", c.target.toJson),
    ("receiver", .option VarId.toJson c.receiver), ("args", .arr (c.args.map VarId.toJson))]

def ofJson? (j : Json) : Option Call := do
  let [some kind, some target, receiver, some args] ←
    j.record? ["kind", "method_ref", "receiver", "args"] | none
  return ⟨← CallKind.ofJson? kind, ← MethodRef.ofJson? target,
    ← Json.option? VarId.ofJson? receiver, ← args.list? VarId.ofJson?⟩

end Call

namespace Stmt

def caseToJson (c : Int32 × Nat) : Json := .arr [.int c.1.toInt, .nat c.2]

def caseOfJson? : Json → Option (Int32 × Nat)
  | .arr [value, target] => do return (← value.int32?, ← target.natBelow? indexBound)
  | _ => none

def toJson : Stmt → Json
  | .assign lhs rhs => .tagged "Assign" (.obj [("lhs", lhs.toJson), ("rhs", rhs.toJson)])
  | .store target rhs => .tagged "Store" (.obj [("target", target.toJson), ("rhs", rhs.toJson)])
  | .invoke lhs call =>
    .tagged "Invoke" (.obj [("lhs", .option VarId.toJson lhs), ("call", call.toJson)])
  | .branch cond target => .tagged "If" (.obj [("cond", cond.toJson), ("target", .nat target)])
  | .goto target => .tagged "Goto" (.obj [("target", .nat target)])
  | .switch var cases default =>
    .tagged "Switch" (.obj [("var", var.toJson), ("cases", .arr (cases.map caseToJson)),
      ("default", .nat default)])
  | .ret value => .tagged "Return" (.obj [("value", .option VarId.toJson value)])
  | .nop => .str "Nop"

def ofContent? (content : Json) : String → Option Stmt
  | "Assign" => do
    let [some lhs, some rhs] ← content.members? ["lhs", "rhs"] | none
    return .assign (← VarId.ofJson? lhs) (← Expr.ofJson? rhs)
  | "Store" => do
    let [some target, some rhs] ← content.members? ["target", "rhs"] | none
    return .store (← Place.ofJson? target) (← VarId.ofJson? rhs)
  | "Invoke" => do
    let [lhs, some call] ← content.members? ["lhs", "call"] | none
    return .invoke (← Json.option? VarId.ofJson? lhs) (← Call.ofJson? call)
  | "If" => do
    let [some cond, some target] ← content.members? ["cond", "target"] | none
    return .branch (← Binary.ofJson? cond) (← target.natBelow? indexBound)
  | "Goto" => do
    let [some target] ← content.members? ["target"] | none
    return .goto (← target.natBelow? indexBound)
  | "Switch" => do
    let [some var, some cases, some default] ← content.members? ["var", "cases", "default"] | none
    return .switch (← VarId.ofJson? var) (← cases.list? caseOfJson?)
      (← default.natBelow? indexBound)
  | "Return" => do
    let [value] ← content.members? ["value"] | none
    return .ret (← Json.option? VarId.ofJson? value)
  | _ => none

def ofJson? (j : Json) : Option Stmt :=
  if j.bareCase? = some "Nop" then some .nop
  else match j.case? with
    | some (tag, some content) => ofContent? content tag
    | _ => none

end Stmt
end ProgramAnalysis
