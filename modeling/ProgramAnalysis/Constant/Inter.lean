import ProgramAnalysis.Constant.Intra
import ProgramAnalysis.Dataflow.Icfg
/-!
Constant propagation across calls. A linked call passes its fact through; its effect is on its
edges: the way past the callees forgets the result, the way in binds arguments to parameters, the
way back binds returned variables to the result.
-/
namespace ProgramAnalysis.Constant

def callAt? (p : Program) (n : Node) : Option (Option VarId × List VarId) :=
  match p.stmtAt? n with
  | some (.invoke result call) => some (result, call.args)
  | _ => none

def callOf? (p : Program) (e : FlowEdge) : Option (Option VarId × List VarId) :=
  e.label.site.bind (callAt? p)

/-- Parameters of the callee with the arguments of the call. -/
def bindings (p : Program) (e : FlowEdge) : List (VarId × VarId) :=
  match callOf? p e with
  | some (_, args) => (paramsOf p e.target.method).zip args
  | none => []

def bindArgs (p : Program) (e : FlowEdge) (f : Fact) : Fact :=
  (bindings p e).foldl (fun b (param, arg) =>
    if p.holdsInt param then b.set param (f.get arg) else b) .empty

/-- The value of what a method returns. -/
def returned (p : Program) (m : MethodId) (f : Fact) : Value :=
  match (p.method? m).bind (·.body) with
  | some b => b.returnVars.foldl (fun acc v => acc.meet (f.get v)) .undef
  | none => .undef

def bindResult (p : Program) (e : FlowEdge) (f : Fact) : Fact :=
  match callOf? p e with
  | some (some x, _) =>
    if p.holdsInt x then Fact.empty.set x (returned p e.source.method f) else .empty
  | _ => .empty

def forgetResult (p : Program) (n : Node) (f : Fact) : Fact :=
  match callAt? p n with
  | some (some x, _) => f.erase x
  | _ => f

def carryEdge (p : Program) (e : FlowEdge) (f : Fact) : Fact :=
  match e.label.kind with
  | .within _ => f
  | .callToReturn => forgetResult p e.source f
  | .call => bindArgs p e f
  | .ret => bindResult p e f

def interAnalysis (p : Program) (g : Icfg) : Analysis Node EdgeLabel Fact where
  forward := true
  boundary := boundary p
  initial := .empty
  meet := Fact.meet
  transfer n f := if g.isLinked n then f else transfer p n f
  carry := carryEdge p
  height := height p

/-- The parameters that facts are bound to: those of entry methods, and those of callees. -/
def boundVars (p : Program) (g : Icfg) : List VarId :=
  (g.graph.ends.filter fun e => g.graph.nodes.contains e.1).flatMap
    (fun e => paramsOf p e.1.method) ++
  (g.graph.edges.filter fun e => e.label.kind == .call && g.graph.nodes.contains e.target).flatMap
    fun e => (bindings p e).map (·.1)

def solveIcfg (p : Program) (g : Icfg) : Traced Facts := do
  p.checkVars (boundVars p g)
  let s := Dataflow.solve g.graph (interAnalysis p g)
  Traced.log (.fixpointFound g.graph.nodes.length s.iterations)
  return s

end ProgramAnalysis.Constant
