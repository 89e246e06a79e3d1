import ProgramAnalysis.Proofs.CallGraph.ClassHierarchy
import ProgramAnalysis.Proofs.PointsTo.LeastSolution

/-! The call graph of the class hierarchy covers the one that the points-to solver finds, provided
that receivers have the types that their calls declare. The facts of the solver, cut down to the
calls that the hierarchy allows, still satisfy the constraints; as those facts are the least ones,
nothing has been cut. -/
namespace ProgramAnalysis.PointsTo
open Relation

variable {q : Problem} {S : Facts} {s : State} {g : CallGraph} {entry m : MethodId}
  {site : StmtRef} {result : Option VarId} {call : Call}

/-- The class that has the methods of the type is the declared class or below it. -/
def Conforms (p : Program) (declared : ClassId) (ty : Ty) : Prop :=
  ∃ c, receiverClass? p ty = some c ∧ p.isSubtype c declared = .ok true

/-- Every object that reaches the receiver of a virtual or interface call conforms to the class
that the call names. -/
def ReceiversConform (p : Program) (s : State) : Prop :=
  ∀ site result call x o obj, p.stmt? site = some (.invoke result call) →
    call.kind = .virtual ∨ call.kind = .interface → call.receiver = some x →
    o ∈ s.graph.pointsTo (.var x) → s.heap.object? o = some obj →
    Conforms p call.target.cls obj.ty

/-! ### Targets -/

/-- What a call runs on a receiver that conforms to its class is a target in the hierarchy. -/
theorem RunsOn.target {p : Program} {ty : Ty} (h : RunsOn p call ty m)
    (hconform : call.kind = .virtual ∨ call.kind = .interface → Conforms p call.target.cls ty) :
    ClassHierarchy.Target p call m := by
  cases h with
  | static hk hm => exact .static hk hm
  | special hk hm => exact .special hk hm
  | onClass hk hc hm =>
    obtain ⟨c, hc', hsub⟩ := hconform hk
    rw [hc] at hc'
    cases hc'
    exact .below hk (Program.mem_subtypes (Program.isSubtype_sound hsub)) hm

/-! ### Facts within a call graph -/

namespace Facts

/-- The calls and methods that are also in `g`. -/
def within (S : Facts) (g : CallGraph) : Facts where
  pointsTo := S.pointsTo
  edges := {e | e ∈ S.edges ∧ e ∈ g.edges}
  reachable := {m | m ∈ S.reachable ∧ m ∈ g.reachable}

theorem Linked.within {p : Program} (h : S.Linked p site result call m)
    (hg : ClassHierarchy.Holds g ⟨call.kind, site, m⟩) :
    (S.within g).Linked p site result call m :=
  ⟨⟨h.edge, hg.1⟩, ⟨h.reachable, hg.2⟩, h.argument, h.returned⟩

/-- Only calls demand edges, so that the others hold as they did. -/
theorem StmtHolds.within {st : Stmt} (h : S.StmtHolds q site st)
    (hcall : ∀ {result call m}, st = .invoke result call →
      (call.kind = .static ∧
          q.program.resolve call.target.cls call.target.subsignature = .ok (some m) ∨
        ∃ x, call.receiver = some x ∧ ∃ o ∈ S.pointsTo (.var x), RunsOn q.program call o.ty m) →
      ClassHierarchy.Holds g ⟨call.kind, site, m⟩) :
    (S.within g).StmtHolds q site st := by
  cases st with
  | invoke result call =>
    obtain ⟨hstatic, hreceiver⟩ := h
    refine ⟨fun hk m hm => ?_, fun x hx o ho m hm => ?_⟩
    · exact (hstatic hk m hm).within (hcall rfl (.inl ⟨hk, hm⟩))
    · obtain ⟨hlinked, hthis⟩ := hreceiver x hx o ho m hm
      exact ⟨hlinked.within (hcall rfl (.inr ⟨x, hx, o, ho, hm⟩)), hthis⟩
  | assign x rhs =>
    cases rhs with
    | field base f => cases base <;> exact h
    | _ => exact h
  | store target y =>
    cases target with
    | field base f => cases base <;> exact h
    | element base i => exact h
  | _ => exact h

end Facts

/-! ### The two call graphs -/

theorem Finished.target (hs : Finished q S s) (hconform : ReceiversConform q.program s)
    (hst : q.program.stmt? site = some (.invoke result call))
    (hm : call.kind = .static ∧
        q.program.resolve call.target.cls call.target.subsignature = .ok (some m) ∨
      ∃ x, call.receiver = some x ∧
        ∃ a ∈ (s.facts q.model).pointsTo (.var x), RunsOn q.program call a.ty m) :
    ClassHierarchy.Target q.program call m := by
  rcases hm with ⟨hk, hm⟩ | ⟨x, hx, a, ha, hm⟩
  · exact .static hk hm
  · refine hm.target fun hk => ?_
    obtain ⟨o, ho, hold⟩ := hs.exists_holds (P := .var x) rfl ha
    obtain ⟨obj, hobj, hty⟩ := Heap.abstract?_ty ho
    rw [← hty]
    exact hconform _ _ _ _ _ _ hst hk hx (hs.inv.wellFormed.graph.mem_pointsTo.mpr hold) hobj

theorem Finished.within_satisfies (hs : Finished q S s) (hentry : entry ∈ s.calls.reachable)
    (hconform : ReceiversConform q.program s) (hstart : entry ∈ g.reachable)
    (hclosed : ∀ m ∈ g.reachable, ClassHierarchy.Expanded q.program g m) :
    ((s.facts q.model).within g).Satisfies q entry := by
  refine ⟨⟨hentry, hstart⟩, fun {site st} hsite hst => ?_⟩
  refine (hs.stmtHolds hsite.1 hst).within fun {result call m} hcall hm => ?_
  subst hcall
  exact hclosed site.method hsite.2 _ rfl ⟨result, call, hst, rfl, hs.target hconform hst hm⟩

/-- The only objects of the sample are of class `B`, which extends the class of its only call. -/
theorem Finished.receiversConform_sample (hs : Finished ⟨.sample, .allocationSite, none⟩ S s) :
    ReceiversConform .sample s := by
  intro site result call x o obj hst _ _ _ hobj
  obtain ⟨v, hnew⟩ := hs.inv.heap.site hobj
  have hty : obj.ty = .cls ⟨1⟩ := by
    refine Program.stmt_sample (P := fun s => ∀ v ty, s = .assign v (.new ty) → ty = .cls ⟨1⟩)
      hnew (fun v _ _ he => by cases he) (fun s hs => ?_) v obj.ty rfl
    rintro v ty rfl
    exact (show _ ∧ ty = _ by simpa [Body.sample] using hs).2
  have hcls : call.target.cls = ⟨0⟩ := by
    refine Program.stmt_sample (P := fun s => ∀ result call, s = .invoke result call →
      call.target.cls = ⟨0⟩) hst (fun v _ _ he => by cases he) (fun s hs => ?_) result call rfl
    rintro result call rfl
    obtain ⟨-, rfl⟩ : _ ∧ call = _ := by simpa [Body.sample] using hs
    rfl
  exact ⟨⟨1⟩, by rw [hty]; rfl, by rw [hcls]; rfl⟩

/-- Every call edge that the solver finds is an edge of the hierarchy's call graph, of the same
kind, and every method that it reaches is reachable there. -/
theorem solve_calls_le_hierarchy (hp : q.program.Proper)
    (hentry : q.entry.or q.program.entry = some entry)
    (hlt : entry.index < q.program.methods.size) :
    ∃ s g, (solve q .initial).result = .ok s ∧
      (ClassHierarchy.build q.program entry).result = .ok g ∧
      (ReceiversConform q.program s →
        (∀ e ∈ s.calls.edges, e ∈ g.edges) ∧ ∀ m ∈ s.calls.reachable, m ∈ g.reachable) := by
  obtain ⟨s, hres, hfin, hreach, hleast⟩ := solve_finished hp hentry hlt
  obtain ⟨g, hg, hinv, hclosed⟩ := ClassHierarchy.build_ok hp.accepted hp.classes hlt
  refine ⟨s, g, hres, hg, fun hconform => ?_⟩
  have hsat := hfin.within_satisfies hreach hconform hinv.start hclosed
  obtain ⟨-, hedges, hreachable⟩ := (hleast _ hsat).facts_le
  exact ⟨fun e he => (hedges he).2, fun m hm => (hreachable hm).2⟩

theorem solve_calls_le_hierarchy_sample :
    ∃ s g, (solve ⟨.sample, .allocationSite, none⟩ .initial).result = .ok s ∧
      (ClassHierarchy.build .sample ⟨1⟩).result = .ok g ∧
      ReceiversConform .sample s ∧
      (∀ e ∈ s.calls.edges, e ∈ g.edges) ∧ ∀ m ∈ s.calls.reachable, m ∈ g.reachable := by
  obtain ⟨s, g, hs, hg, hle⟩ := solve_calls_le_hierarchy (q := ⟨.sample, .allocationSite, none⟩)
    Program.proper_sample rfl (by decide : (1 : Nat) < Program.sample.methods.size)
  obtain ⟨s', hs', hfin, -⟩ := solve_finished (q := ⟨.sample, .allocationSite, none⟩)
    Program.proper_sample rfl (by decide : (1 : Nat) < Program.sample.methods.size)
  rw [hs] at hs'
  cases hs'
  have hconform := hfin.receiversConform_sample
  exact ⟨s, g, hs, hg, hconform, hle hconform⟩

end ProgramAnalysis.PointsTo
