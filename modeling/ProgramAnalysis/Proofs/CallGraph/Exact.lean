import Mathlib.Order.Bounds.Basic
import ProgramAnalysis.Proofs.CallGraph.Closed

/-! The call graph of the class hierarchy is the one that the hierarchy describes: it reaches the least
set of methods that holds the entry and all that calls in it may run, and it has one edge for each
reachable call and each method that the call may run. What a call may run is said by the relation
between classes, and by lookup up the chain of superclasses; cycles in the hierarchy are no matter. -/
namespace ProgramAnalysis.ClassHierarchy
open Relation

variable {p : Program} {entry m : MethodId} {call : Call} {e : CallEdge} {g : CallGraph}

/-- What a call may run, whatever its receiver is. -/
def callees (p : Program) (call : Call) : Set MethodId :=
  let c := call.target.cls
  let s := call.target.subsignature
  match call.kind with
  | .static => {m | p.resolve c s = .ok (some m)}
  | .special => {m | p.dispatch c s = .ok (some m)}
  | .virtual | .interface =>
    {m | ∃ d, ReflTransGen p.Inherits d c ∧ p.dispatch d s = .ok (some m)}
  | .dynamic => ∅

theorem target_iff : Target p call m ↔ m ∈ callees p call := by
  unfold callees
  cases hkind : call.kind with
  | static => exact Target.static_iff hkind
  | special => exact Target.special_iff hkind
  | «virtual» | interface =>
    rw [Target.below_iff (by simp [hkind])]
    simp only [Program.mem_subtypes_iff]
    exact Iff.rfl
  | dynamic => exact ⟨fun h => absurd h (not_target_dynamic hkind), fun h => absurd h id⟩

/-- The set holds the entry, and whatever a call in the body of one of its methods may run. -/
def ClosedUnderCalls (p : Program) (entry : MethodId) (R : Set MethodId) : Prop :=
  entry ∈ R ∧ ∀ site result call, site.method ∈ R → p.stmt? site = some (.invoke result call) →
    callees p call ⊆ R

theorem Reaches.mem {R : Set MethodId} (h : Reaches p entry m)
    (hR : ClosedUnderCalls p entry R) : m ∈ R := by
  induction h with
  | refl => exact hR.1
  | tail _ he ih =>
    obtain ⟨e, ⟨result, call, hs, _, ht⟩, rfl, rfl⟩ := he
    exact hR.2 e.site result call ih hs (target_iff.mp ht)

theorem Search.Inv.isLeast (hg : Search.Inv p entry ⟨g, []⟩)
    (hexpanded : ∀ m ∈ g.reachable, Expanded p g m) :
    IsLeast {R | ClosedUnderCalls p entry R} {m | m ∈ g.reachable} := by
  refine ⟨⟨hg.start, fun site result call hm hs k hk => ?_⟩, fun R hR m hm => (hg.reached hm).mem hR⟩
  exact (hexpanded site.method hm ⟨call.kind, site, k⟩ rfl
    ⟨result, call, hs, rfl, target_iff.mpr hk⟩).2

theorem Search.Inv.mem_edges_iff (hg : Search.Inv p entry ⟨g, []⟩)
    (hexpanded : ∀ m ∈ g.reachable, Expanded p g m) :
    e ∈ g.edges ↔ e.site.method ∈ g.reachable ∧ ∃ result call,
      p.stmt? e.site = some (.invoke result call) ∧ e.kind = call.kind ∧
      e.callee ∈ callees p call := by
  constructor
  · intro he
    obtain ⟨⟨result, call, hs, hkind, ht⟩, hm⟩ := hg.edge he
    exact ⟨hm, result, call, hs, hkind.symm, target_iff.mp ht⟩
  · rintro ⟨hm, result, call, hs, hkind, hk⟩
    exact (hexpanded _ hm e rfl ⟨result, call, hs, hkind.symm, target_iff.mpr hk⟩).1

/-- The search for the call graph of the class hierarchy ends, whatever its fuel, and the graph is
exact: its methods are the least set closed under calls, its edges are those of the calls in them, and
it lists either once. Lookup, by which targets are told, gives the first method up the chain of
superclasses. -/
theorem build_exact (hp : p.Accepted) (hr : p.ClassesInRange) (hlt : entry.index < p.methods.size) :
    (∃ g, (build p entry).result = .ok g ∧ Ends (Search.round p) (.start entry) (.ok g) ∧
      IsLeast {R | ClosedUnderCalls p entry R} {m | m ∈ g.reachable} ∧
      g.reachable.toList.Nodup ∧
      (∀ e, e ∈ g.edges ↔ e.site.method ∈ g.reachable ∧ ∃ result call,
        p.stmt? e.site = some (.invoke result call) ∧ e.kind = call.kind ∧
        e.callee ∈ callees p call) ∧
      g.edges.toList.Nodup) ∧
    ∀ c s m, p.HasClass c →
      (p.resolve c s = .ok (some m) ↔ p.Provides s (fun _ => true) c m) ∧
      (p.dispatch c s = .ok (some m) ↔ p.Provides s (fun decl => !decl.isAbstract) c m) := by
  refine ⟨?_, fun c s m hc => ⟨Program.resolve_eq_some_iff hp hr hc,
    Program.dispatch_eq_some_iff hp hr hc⟩⟩
  obtain ⟨g, hg, hinv, hexpanded⟩ := build_ok hp hr hlt
  have hbuilt : g.Built := (CallGraph.Found.hierarchy hg).built
  have hends : Ends (Search.round p) (.start entry) (.ok g) := hg ▸ build_ends hp hr hlt
  exact ⟨g, hg, hends, hinv.isLeast hexpanded, hbuilt.nodup_reachable,
    fun e => hinv.mem_edges_iff hexpanded, hbuilt.nodup_edges.of_map _⟩

/-! ### A cyclic hierarchy

`A` and `B` extend each other; `A` declares `m`, and `n` is abstract. `main(o)` runs `o.m(); o.n();
return`. -/

def cyclicMain : Body where
  this := none
  params := [⟨0⟩]
  stmts := #[.invoke none ⟨.virtual, ⟨⟨1⟩, "void m()"⟩, some ⟨0⟩, []⟩,
    .invoke none ⟨.virtual, ⟨⟨1⟩, "void n()"⟩, some ⟨0⟩, []⟩, .ret none]

def cyclicBuilder : Builder where
  classes := #[⟨"A", some ⟨1⟩, [], false, false, [("void m()", ⟨0⟩), ("void main(B)", ⟨1⟩)], []⟩,
    ⟨"B", some ⟨0⟩, [], false, false, [("void n()", ⟨2⟩)], []⟩]
  fields := #[]
  methods := #[⟨"void m()", ⟨0⟩, false, false, none⟩,
    ⟨"void main(B)", ⟨0⟩, true, false, some cyclicMain⟩, ⟨"void n()", ⟨1⟩, false, true, none⟩]
  vars := #[⟨"o", .cls ⟨1⟩, ⟨1⟩⟩]
  entry := none
  root := none

def cyclic : Program := cyclicBuilder.program

theorem accepted_cyclic : cyclic.Accepted := by
  have hm := ((Builder.Built.empty.addClass "A" (some ⟨1⟩)).addClass "B" (some ⟨0⟩)).addMethod
    (rfl : Builder.addMethod _ ⟨0⟩ "void m()" false = .ok (_, _))
  have hmain := hm.addMethod (rfl : Builder.addMethod _ ⟨0⟩ "void main(B)" true = .ok (_, _))
  have hn := hmain.addAbstractMethod (rfl : Builder.addAbstractMethod _ ⟨1⟩ "void n()" = .ok (_, _))
  have hbody := (hn.addVar ⟨1⟩ "o" (.cls ⟨1⟩)).setBody
    (rfl : Builder.setBody _ ⟨1⟩ cyclicMain = .ok _)
  exact ⟨cyclicBuilder, hbody, rfl⟩

theorem stmt?_cyclic {site : StmtRef} {st : Stmt} (h : cyclic.stmt? site = some st) :
    st ∈ cyclicMain.stmts := by
  obtain ⟨b, hb, hs⟩ := Program.stmt?_eq_some_iff.mp h
  obtain ⟨⟨_ | _ | _ | k⟩, i⟩ := site <;> cases hb
  exact Array.mem_of_getElem? hs

theorem classesInRange_cyclic : cyclic.ClassesInRange where
  superclass {c d s} hd hs := by
    obtain ⟨_ | _ | k⟩ := c <;> cases hd <;> cases hs <;> decide
  interface {c d s} hd hs := by
    obtain ⟨_ | _ | k⟩ := c <;> cases hd <;> cases hs
  root h := by cases h
  call h := by
    have hmem := stmt?_cyclic h
    simp only [cyclicMain, List.mem_toArray, List.mem_cons, Stmt.invoke.injEq] at hmem
    rcases hmem with ⟨-, rfl⟩ | ⟨-, rfl⟩ | h | h
    · decide
    · decide
    · cases h
    · cases h
  allocation h := by
    have hmem := stmt?_cyclic h
    simp [cyclicMain] at hmem

def cyclicCalls : CallGraph := ⟨[⟨1⟩], #[⟨1⟩, ⟨0⟩], #[⟨.virtual, ⟨⟨1⟩, 0⟩, ⟨0⟩⟩]⟩

theorem build_exact_cyclic : cyclic.Accepted ∧ cyclic.ClassesInRange ∧
    (build cyclic ⟨1⟩).result = .ok cyclicCalls ∧
    Ends (Search.round cyclic) (.start ⟨1⟩) (.ok cyclicCalls) ∧
    IsLeast {R | ClosedUnderCalls cyclic ⟨1⟩ R} {m | m ∈ cyclicCalls.reachable} ∧
    (∀ e : CallEdge, e = ⟨.virtual, ⟨⟨1⟩, 0⟩, ⟨0⟩⟩ ↔ e.site.method ∈ cyclicCalls.reachable ∧ ∃ result call,
      cyclic.stmt? e.site = some (.invoke result call) ∧ e.kind = call.kind ∧
      e.callee ∈ callees cyclic call) := by
  obtain ⟨⟨g, hg, hends, hleast, -, hedges, -⟩, -⟩ :=
    build_exact accepted_cyclic classesInRange_cyclic (by decide : 1 < cyclic.methods.size)
  have hcalls : (build cyclic ⟨1⟩).result = .ok cyclicCalls := by decide +kernel
  cases hg.symm.trans hcalls
  exact ⟨accepted_cyclic, classesInRange_cyclic, hcalls, hends, hleast,
    fun e => Array.mem_singleton.symm.trans (hedges e)⟩

end ProgramAnalysis.ClassHierarchy
