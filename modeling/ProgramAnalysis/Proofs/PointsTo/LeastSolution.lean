import Mathlib.Data.Set.Basic
import Mathlib.Order.Bounds.Basic
import ProgramAnalysis.Proofs.PointsTo.Termination

/-! The state in which the solver ends is the least solution of the inclusion constraints. Nothing
in it is missing from any solution, by the invariant; and it is a solution, since nothing is left
to do in it. -/
namespace ProgramAnalysis.PointsTo

variable {q : Problem} {S : Facts} {s : State} {entry m : MethodId} {site : StmtRef}
  {P Q : Pointer} {l k : Location} {a : AbstractObject}

/-- Everything is a solution. -/
def Facts.all : Facts := ⟨fun _ => Set.univ, Set.univ, Set.univ⟩

theorem Facts.linked_all {p : Program} {result : Option VarId} {call : Call} :
    Facts.all.Linked p site result call m :=
  ⟨trivial, trivial, fun _ _ => Set.subset_univ _, fun _ _ _ => Set.subset_univ _⟩

theorem Facts.all_satisfies (q : Problem) (entry : MethodId) : Facts.all.Satisfies q entry := by
  refine ⟨trivial, fun {site st} _ _ => ?_⟩
  unfold StmtHolds
  split
  case h_9 => exact ⟨fun _ _ _ => linked_all, fun _ _ _ _ _ _ => ⟨linked_all, fun _ _ _ _ => trivial⟩⟩
  case h_1 | h_10 => trivial
  all_goals first
    | exact Set.subset_univ _
    | exact fun _ _ => Set.subset_univ _

/-! ### Nothing is superfluous -/

theorem Inv.facts_le (hs : Inv q S s) : s.facts q.model ≤ S := by
  refine ⟨fun l a ⟨P, o, hl, ha, ho⟩ => ?_, fun e he => ?_, fun m hm => (hs.reachable hm).1⟩
  · have hold := hs.wellFormed.graph.mem_pointsTo.mp ho
    obtain ⟨l', a', hl', ha', hmem⟩ := (hs.justified (.inl hold)).fact
    rw [hl] at hl'
    rw [ha] at ha'
    cases hl'
    cases ha'
    exact hmem
  · obtain ⟨result, call, _, hkind, hlinked⟩ := hs.edge he
    have hedge := hlinked.edge
    rw [hkind] at hedge
    exact hedge

theorem Inv.faithful (hs : Inv q S s) : s.Faithful q.model where
  injective := hs.heap.injective
  named ho := by
    obtain ⟨l, a, hl, ha, _⟩ :=
      (hs.justified (.inl (hs.wellFormed.graph.mem_pointsTo.mp ho))).fact
    exact ⟨⟨l, hl⟩, a, ha⟩

/-! ### Nothing is missing -/

/-- Nothing is left to do. -/
structure Finished (q : Problem) (S : Facts) (s : State) : Prop where
  inv : Inv q S s
  settled : Settled q s
  work : s.work = []
  pending : s.pending = []

namespace Finished

variable {o : ObjId}

theorem holds_of_reaches (hs : Finished q S s) (h : s.Reaches P o) : s.graph.Holds P o := by
  rcases h with h | ⟨n, objects, hm, _⟩
  · exact h
  · rw [hs.work] at hm
    cases hm

theorem mem_facts (hs : Finished q S s) (hl : s.heap.location? q.model P = some l)
    (ha : s.heap.abstract? q.model o = some a) (h : s.Reaches P o) :
    a ∈ (s.facts q.model).pointsTo l :=
  ⟨P, o, hl, ha, hs.inv.wellFormed.graph.mem_pointsTo.mpr (hs.holds_of_reaches h)⟩

/-- An abstract object at a location is an object that the pointer there holds. -/
theorem exists_holds (hs : Finished q S s) (hl : s.heap.location? q.model P = some l)
    (ha : a ∈ (s.facts q.model).pointsTo l) :
    ∃ o, s.heap.abstract? q.model o = some a ∧ s.graph.Holds P o := by
  obtain ⟨P', o, hl', ho, hmem⟩ := ha
  rw [hs.inv.heap.location?_injective hl hl']
  exact ⟨o, ho, hs.inv.wellFormed.graph.mem_pointsTo.mp hmem⟩

theorem subset_of_flows (hs : Finished q S s) (hf : s.graph.Flows P Q)
    (hl : s.heap.location? q.model P = some l) (hk : s.heap.location? q.model Q = some k) :
    (s.facts q.model).pointsTo l ⊆ (s.facts q.model).pointsTo k := by
  intro a ha
  obtain ⟨o, ho, hold⟩ := hs.exists_holds hl ha
  exact hs.mem_facts hk ho (hs.inv.carried hf hold)

theorem linked (hs : Finished q S s) {result : Option VarId} {call : Call}
    (hst : q.program.stmt? site = some (.invoke result call))
    (he : ⟨call.kind, site, m⟩ ∈ s.calls.edges) :
    (s.facts q.model).Linked q.program site result call m := by
  have hbound := hs.settled.bound he
  refine ⟨he, hbound.reachable, fun {b a x} hb hax => ?_, fun {b x i r} hb hx hr => ?_⟩
  · exact hs.subset_of_flows
      (hbound.flows hst hb (mem_bindFlows.mpr (.inl ⟨a, x, hax, rfl⟩))) rfl rfl
  · exact hs.subset_of_flows
      (hbound.flows hst hb (mem_bindFlows.mpr (.inr ⟨x, i, r, hx, hr, rfl⟩))) rfl rfl

/-- What an access or a call through `v` does for each object at `v` has been done. -/
theorem arrived (hs : Finished q S s) {st : Stmt} {v : VarId} {kind : UseKind}
    (hst : q.program.stmt? site = some st) (ht : st.through? = some (kind, v))
    (ha : a ∈ (s.facts q.model).pointsTo (.var v)) :
    ∃ o, s.heap.abstract? q.model o = some a ∧ ArrivalDone q s o site st := by
  obtain ⟨o, ho, hold⟩ := hs.exists_holds (P := .var v) rfl ha
  exact ⟨o, ho, hs.settled.arrived hold hst ht⟩

theorem stmtHolds (hs : Finished q S s) {st : Stmt} (hsite : site.method ∈ s.calls.reachable)
    (hst : q.program.stmt? site = some st) : (s.facts q.model).StmtHolds q site st := by
  have hdone : StmtDone q s site st := by
    rcases hs.settled.done hsite hst with hp | hd
    · rw [hs.pending] at hp
      cases hp
    · exact hd
  unfold Facts.StmtHolds
  split
  case h_1 x ty =>
    obtain ⟨o, ho, hr⟩ := hdone.allocated rfl
    exact hs.mem_facts rfl ho hr
  case h_2 x y => exact hs.subset_of_flows (hdone.flow rfl) rfl rfl
  case h_3 x f => exact hs.subset_of_flows (hdone.flow rfl) rfl rfl
  case h_4 x y f =>
    intro a ha
    obtain ⟨o, ho, hd⟩ := hs.arrived hst rfl ha
    exact hs.subset_of_flows (hd.flow rfl) (by simp [Heap.location?, ho]) rfl
  case h_5 x y i =>
    intro a ha
    obtain ⟨o, ho, hd⟩ := hs.arrived hst rfl ha
    exact hs.subset_of_flows (hd.flow rfl) (by simp [Heap.location?, ho]) rfl
  case h_6 f y => exact hs.subset_of_flows (hdone.flow rfl) rfl rfl
  case h_7 x f y =>
    intro a ha
    obtain ⟨o, ho, hd⟩ := hs.arrived hst rfl ha
    exact hs.subset_of_flows (hd.flow rfl) rfl (by simp [Heap.location?, ho])
  case h_8 x i y =>
    intro a ha
    obtain ⟨o, ho, hd⟩ := hs.arrived hst rfl ha
    exact hs.subset_of_flows (hd.flow rfl) rfl (by simp [Heap.location?, ho])
  case h_9 result call =>
    refine ⟨fun hk m hm => hs.linked hst (hdone.called rfl hk hm), fun x hx a ha m hm => ?_⟩
    have ht : (Stmt.invoke result call).through? = some (.invoke, x) := by
      simp [Stmt.through?, hx]
    obtain ⟨o, ho, hd⟩ := hs.arrived hst ht ha
    obtain ⟨y, hy, hall⟩ := hd.called rfl
    obtain ⟨y', hy', hty⟩ := Heap.abstract?_ty ho
    rw [hy] at hy'
    cases hy'
    obtain ⟨hedge, hthis⟩ := hall m (hty ▸ hm)
    exact ⟨hs.linked hst hedge, fun b this hb hthis' =>
      hs.mem_facts rfl ho (hthis b this hb hthis')⟩
  case h_10 => trivial

theorem satisfies (hs : Finished q S s) (hentry : entry ∈ s.calls.reachable) :
    (s.facts q.model).Satisfies q entry :=
  ⟨hentry, fun hsite hst => hs.stmtHolds hsite hst⟩

end Finished

/-- The solver ends with nothing left to do, and with nothing that some solution lacks. -/
theorem solve_finished (hp : q.program.Proper) (hentry : q.entry.or q.program.entry = some entry)
    (hlt : entry.index < q.program.methods.size) :
    Traced.Returns (solve q .initial) fun s => Finished q .all s ∧ entry ∈ s.calls.reachable ∧
      ∀ S : Facts, S.Satisfies q entry → Inv q S s := by
  obtain ⟨s, hres, hinv, hset, hreach, hwork, hpending⟩ :=
    solve_ok (.of_proper hp) (Facts.all_satisfies q entry) hentry hlt
  refine ⟨s, hres, ⟨hinv, hset, hwork, hpending⟩, hreach, fun S hS => ?_⟩
  obtain ⟨s', hres', hinv', -⟩ := solve_ok (.of_proper hp) hS hentry hlt
  rw [hres] at hres'
  cases hres'
  exact hinv'

/-- The solver ends, and its final state says exactly what the least solution of the inclusion
constraints says. -/
theorem solve_isLeast (hp : q.program.Proper) (hentry : q.entry.or q.program.entry = some entry)
    (hlt : entry.index < q.program.methods.size) :
    ∃ s, (solve q .initial).result = .ok s ∧ s.Faithful q.model ∧
      IsLeast {S : Facts | S.Satisfies q entry} (s.facts q.model) := by
  obtain ⟨s, hres, hfin, hreach, hleast⟩ := solve_finished hp hentry hlt
  exact ⟨s, hres, hfin.inv.faithful, hfin.satisfies hreach, fun S hS => (hleast S hS).facts_le⟩

theorem solve_isLeast_sample :
    ∃ s, (solve ⟨.sample, .allocationSite, none⟩ .initial).result = .ok s ∧
      s.Faithful .allocationSite ∧
      IsLeast {S : Facts | S.Satisfies ⟨.sample, .allocationSite, none⟩ ⟨1⟩}
        (s.facts .allocationSite) :=
  solve_isLeast (q := ⟨.sample, .allocationSite, none⟩) Program.proper_sample rfl (by decide)

end ProgramAnalysis.PointsTo
