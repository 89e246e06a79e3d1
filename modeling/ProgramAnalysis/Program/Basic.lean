import ProgramAnalysis.Error
import ProgramAnalysis.Ir.Body
import ProgramAnalysis.Text.Split
/-!
Programs: arenas of classes, fields, methods and variables addressed by handles.
-/
namespace ProgramAnalysis

/-- An interface keeps its super-interfaces in `interfaces`. `methods` holds one method per
subsignature. -/
structure ClassDecl where
  name : String
  superclass : Option ClassId
  interfaces : List ClassId
  isInterface : Bool
  isAbstract : Bool
  methods : List (String × MethodId)
  fields : List FieldId
deriving DecidableEq

structure FieldDecl where
  name : String
  cls : ClassId
  ty : Ty
  isStatic : Bool
deriving DecidableEq

structure MethodDecl where
  subsignature : String
  cls : ClassId
  isStatic : Bool
  isAbstract : Bool
  body : Option Body
deriving DecidableEq

structure VarDecl where
  name : String
  ty : Ty
  method : MethodId
deriving DecidableEq

/-- The root class is where calls on arrays are dispatched. -/
structure Program where
  classes : Array ClassDecl
  fields : Array FieldDecl
  methods : Array MethodDecl
  vars : Array VarDecl
  entry : Option MethodId
  root : Option ClassId
deriving DecidableEq

/-- `value?` or, for a handle that names nothing, the failure that says so. -/
def orDangling {α : Type} (value? : Option α) : Except AnalysisError α :=
  match value? with
  | some a => .ok a
  | none => .error .danglingHandle

theorem orDangling_eq_ok_iff {α : Type} {value? : Option α} {a : α} :
    orDangling value? = .ok a ↔ value? = some a := by
  cases value? <;> simp [orDangling]

namespace ClassDecl

def declared? (c : ClassDecl) (subsignature : String) : Option MethodId :=
  c.methods.lookup subsignature

/-- A later method hides an earlier one of the same subsignature. -/
def declare (c : ClassDecl) (subsignature : String) (m : MethodId) : ClassDecl :=
  { c with methods := (c.methods.filter fun e => e.1 != subsignature) ++ [(subsignature, m)] }

end ClassDecl

/-- The simple name: the last word before the parameter list. -/
def MethodDecl.name (m : MethodDecl) : String :=
  String.ofList (Text.afterLast ' ' (m.subsignature.toList.takeWhile (· ≠ '(')))

namespace Program

def class? (p : Program) (c : ClassId) : Option ClassDecl := p.classes[c.index]?
def field? (p : Program) (f : FieldId) : Option FieldDecl := p.fields[f.index]?
def method? (p : Program) (m : MethodId) : Option MethodDecl := p.methods[m.index]?
def var? (p : Program) (v : VarId) : Option VarDecl := p.vars[v.index]?

def getClass (p : Program) (c : ClassId) : Except AnalysisError ClassDecl := orDangling (p.class? c)
def getField (p : Program) (f : FieldId) : Except AnalysisError FieldDecl := orDangling (p.field? f)
def getMethod (p : Program) (m : MethodId) : Except AnalysisError MethodDecl :=
  orDangling (p.method? m)
def getVar (p : Program) (v : VarId) : Except AnalysisError VarDecl := orDangling (p.var? v)

def classIds (p : Program) : List ClassId := (List.range p.classes.size).map ClassId.mk
def methodIds (p : Program) : List MethodId := (List.range p.methods.size).map MethodId.mk
def varIds (p : Program) : List VarId := (List.range p.vars.size).map VarId.mk

/-- `none` for abstract and native methods. -/
def getBody (p : Program) (m : MethodId) : Except AnalysisError (Option Body) := do
  return (← p.getMethod m).body

/-- `<Class: subsignature>`. -/
def getSignature (p : Program) (m : MethodId) : Except AnalysisError String := do
  let decl ← p.getMethod m
  let cls ← p.getClass decl.cls
  return s!"<{cls.name}: {decl.subsignature}>"

def requireBody (p : Program) (m : MethodId) : Except AnalysisError Body := do
  match ← p.getBody m with
  | some b => return b
  | none => throw (.missingBody (← p.getSignature m))

def getStmt (p : Program) (m : MethodId) (i : Nat) : Except AnalysisError (Option Stmt) := do
  return (← p.getBody m).bind (·.stmt? i)

/-- Methods without a body have no parameters. -/
def getParams (p : Program) (m : MethodId) : Except AnalysisError (List VarId) := do
  return ((← p.getBody m).map (·.params)).getD []

/-- The statement positions of all calls in a method. -/
def getCallSites (p : Program) (m : MethodId) : Except AnalysisError (List StmtRef) := do
  return ((← p.getBody m).map fun b => b.callSites.map (StmtRef.mk m)).getD []

/-- The first class of that name. -/
def classNamed? (p : Program) (name : String) : Option ClassId :=
  (p.classes.findIdx? fun c => c.name == name).map ClassId.mk

/-- Blanks around the subsignature are dropped. -/
def methodOfSignature? (p : Program) (signature : String) : Option MethodId := do
  let inner ← Text.dropLead? ['<'] signature.toList
  let inner ← (Text.dropLead? ['>'] inner.reverse).map List.reverse
  let (name, subsignature) ← Text.cut? [':', ' '] inner
  let c ← p.classNamed? (String.ofList name)
  (← p.class? c).declared? (String.ofList (Text.trim subsignature))

end Program
end ProgramAnalysis
