import ProgramAnalysis.Program.Basic
/-!
Building a program declaration by declaration. Handles count up from zero in each arena;
`Builder.build` checks the bodies.
-/
namespace ProgramAnalysis

structure Builder where
  classes : Array ClassDecl
  fields : Array FieldDecl
  methods : Array MethodDecl
  vars : Array VarDecl
  entry : Option MethodId
  root : Option ClassId

namespace Builder

def empty : Builder := ⟨#[], #[], #[], #[], none, none⟩

def pushClass (b : Builder) (decl : ClassDecl) : ClassId × Builder :=
  (⟨b.classes.size⟩, { b with classes := b.classes.push decl })

def addClass (b : Builder) (name : String) (superclass : Option ClassId) : ClassId × Builder :=
  b.pushClass ⟨name, superclass, [], false, false, [], []⟩

/-- Interfaces are abstract. -/
def addInterface (b : Builder) (name : String) (supers : List ClassId) : ClassId × Builder :=
  b.pushClass ⟨name, none, supers, true, true, [], []⟩

def modifyClass (b : Builder) (c : ClassId) (f : ClassDecl → ClassDecl) :
    Except AnalysisError Builder :=
  if c.index < b.classes.size then .ok { b with classes := b.classes.modify c.index f }
  else .error .danglingHandle

def implement (b : Builder) (c interface : ClassId) : Except AnalysisError Builder :=
  b.modifyClass c fun d =>
    if interface ∈ d.interfaces then d else { d with interfaces := d.interfaces ++ [interface] }

def setAbstract (b : Builder) (c : ClassId) : Except AnalysisError Builder :=
  b.modifyClass c fun d => { d with isAbstract := true }

def setRoot (b : Builder) (c : ClassId) : Builder := { b with root := some c }

def addField (b : Builder) (c : ClassId) (name : String) (ty : Ty) (isStatic : Bool) :
    Except AnalysisError (FieldId × Builder) := do
  let f : FieldId := ⟨b.fields.size⟩
  let b ← b.modifyClass c fun d => { d with fields := d.fields ++ [f] }
  return (f, { b with fields := b.fields.push ⟨name, c, ty, isStatic⟩ })

def pushMethod (b : Builder) (decl : MethodDecl) : Except AnalysisError (MethodId × Builder) := do
  let m : MethodId := ⟨b.methods.size⟩
  let b ← b.modifyClass decl.cls fun d => d.declare decl.subsignature m
  return (m, { b with methods := b.methods.push decl })

def addMethod (b : Builder) (c : ClassId) (subsignature : String) (isStatic : Bool) :
    Except AnalysisError (MethodId × Builder) :=
  b.pushMethod ⟨subsignature, c, isStatic, false, none⟩

def addAbstractMethod (b : Builder) (c : ClassId) (subsignature : String) :
    Except AnalysisError (MethodId × Builder) :=
  b.pushMethod ⟨subsignature, c, false, true, none⟩

def addVar (b : Builder) (m : MethodId) (name : String) (ty : Ty) : VarId × Builder :=
  (⟨b.vars.size⟩, { b with vars := b.vars.push ⟨name, ty, m⟩ })

def setBody (b : Builder) (m : MethodId) (body : Body) : Except AnalysisError Builder :=
  if m.index < b.methods.size then
    .ok { b with methods := b.methods.modify m.index fun d => { d with body := some body } }
  else .error .danglingHandle

def setEntry (b : Builder) (m : MethodId) : Builder := { b with entry := some m }

def owns (b : Builder) (m : MethodId) (v : VarId) : Bool :=
  b.vars[v.index]?.any fun d => d.method == m

/-- A jump out of the body is found before a variable of another method. -/
def stmtFault? (b : Builder) (m : MethodId) (size i : Nat) (s : Stmt) : Option BodyFault :=
  match s.jumpTargets.find? fun t => size ≤ t with
  | some t => some (.jumpOutside i t size)
  | none =>
    ((s.def?.toList ++ s.uses).find? fun v => !b.owns m v).map (.foreignVar i)

def bodyFault? (b : Builder) (m : MethodId) (decl : MethodDecl) (body : Body) : Option BodyFault :=
  if decl.isAbstract then some .abstractMethod
  else if decl.isStatic && body.this.isSome then some .staticThis
  else body.indexed.findSome? fun (i, s) => b.stmtFault? m body.size i s

def methodFault? (b : Builder) (m : MethodId) (decl : MethodDecl) : Option BodyFault :=
  decl.body.bind (b.bodyFault? m decl)

def program (b : Builder) : Program :=
  ⟨b.classes, b.fields, b.methods, b.vars, b.entry, b.root⟩

def checkMethods (b : Builder) : List (MethodDecl × Nat) → Except AnalysisError Unit
  | [] => .ok ()
  | (decl, i) :: rest =>
    match b.methodFault? ⟨i⟩ decl with
    | none => b.checkMethods rest
    | some fault => do throw (.malformedBody (← b.program.getSignature ⟨i⟩) fault)

def checkEntry (b : Builder) : Except AnalysisError Unit :=
  match b.entry with
  | none => .ok ()
  | some m => if m.index < b.methods.size then .ok () else .error (.entryNotFound m.text)

/-- Bodies are checked in method order, the entry last. -/
def build (b : Builder) : Except AnalysisError Program := do
  b.checkMethods b.methods.toList.zipIdx
  b.checkEntry
  return b.program

end Builder
end ProgramAnalysis
