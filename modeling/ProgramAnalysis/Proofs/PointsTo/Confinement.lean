import ProgramAnalysis.Proofs.Program.Agreement
import ProgramAnalysis.Proofs.PointsTo.LeastSolution

/-! Facts about some of the methods. If no call in them runs a method that is not one of them, the facts
about them and their variables satisfy the constraints by themselves. -/
namespace ProgramAnalysis.PointsTo

variable {q : Problem} {p : Program} {S : Facts} {R : Set MethodId} {s : State} {entry m : MethodId}
  {site : StmtRef} {st : Stmt} {l k : Location} {result : Option VarId} {call : Call}

namespace Facts

/-- If the location is a variable, it belongs to a method in `R`. -/
def Inside (p : Program) (R : Set MethodId) (l : Location) : Prop :=
  ∀ v, l = .var v → ∃ m ∈ R, p.Owns m v

/-- What the facts say about the methods in `R` and their variables. -/
def confined (S : Facts) (p : Program) (R : Set MethodId) : Facts where
  pointsTo l := {a | a ∈ S.pointsTo l ∧ Inside p R l}
  edges := {e | e ∈ S.edges ∧ e.site.method ∈ R}
  reachable := {m | m ∈ S.reachable ∧ m ∈ R}

theorem subset_confined (h : S.pointsTo l ⊆ S.pointsTo k) (hk : Inside p R k) :
    (S.confined p R).pointsTo l ⊆ (S.confined p R).pointsTo k :=
  fun _ ha => ⟨h ha.1, hk⟩

theorem inside_of_mentions (hp : p.WellFormed) (hm : m ∈ R) {b : Body} (hb : p.body? m = some b)
    {v : VarId} (hv : b.Mentions v) : Inside p R (.var v) := by
  rintro w ⟨⟩
  exact ⟨m, hm, hp.mentioned hb hv⟩

theorem inside_of_stmt (hp : p.WellFormed) (hsite : site.method ∈ R) (hst : p.stmt? site = some st)
    {v : VarId} (hv : st.def? = some v) : Inside p R (.var v) := by
  obtain ⟨b, hb, hst⟩ := Program.stmt?_eq_some_iff.mp hst
  exact inside_of_mentions hp hsite hb (.inr (.inr ⟨site.index, st, hst, .inl hv⟩))

theorem Linked.confined (h : S.Linked p site result call m) (hp : p.WellFormed)
    (hsite : site.method ∈ R) (hm : m ∈ R) (hst : p.stmt? site = some (.invoke result call)) :
    (S.confined p R).Linked p site result call m where
  edge := ⟨h.edge, hsite⟩
  reachable := ⟨h.reachable, hm⟩
  argument hb hax := subset_confined (h.argument hb hax)
    (inside_of_mentions hp hm hb (.inr (.inl (List.of_mem_zip hax).2)))
  returned hb hx hr := subset_confined (h.returned hb hx hr) (inside_of_stmt hp hsite hst hx)

theorem StmtHolds.confined (h : S.StmtHolds q site st) (hp : q.program.WellFormed)
    (hsite : site.method ∈ R) (hst : q.program.stmt? site = some st)
    (hcall : ∀ {result call m}, st = .invoke result call → ⟨call.kind, site, m⟩ ∈ S.edges → m ∈ R) :
    (S.confined q.program R).StmtHolds q site st := by
  have hinside : ∀ x, st.def? = some x → Inside q.program R (.var x) :=
    fun x hx => inside_of_stmt hp hsite hst hx
  unfold StmtHolds at *
  split
  case h_1 x ty => exact ⟨h, hinside x rfl⟩
  case h_2 x y => exact subset_confined h (hinside x rfl)
  case h_3 x f => exact subset_confined h (hinside x rfl)
  case h_4 x y f => exact fun o ho => subset_confined (h o ho.1) (hinside x rfl)
  case h_5 x y i => exact fun o ho => subset_confined (h o ho.1) (hinside x rfl)
  case h_6 f y => exact subset_confined h nofun
  case h_7 x f y => exact fun o ho => subset_confined (h o ho.1) nofun
  case h_8 x i y => exact fun o ho => subset_confined (h o ho.1) nofun
  case h_9 result call =>
    obtain ⟨hstatic, hreceiver⟩ := h
    refine ⟨fun hk m hm => ?_, fun x hx o ho m hm => ?_⟩
    · have hlinked := hstatic hk m hm
      exact hlinked.confined hp hsite (hcall rfl hlinked.edge) hst
    · obtain ⟨hlinked, hthis⟩ := hreceiver x hx o ho.1 m hm
      have hmem := hcall rfl hlinked.edge
      refine ⟨hlinked.confined hp hsite hmem hst, fun b this hb hthis' => ?_⟩
      exact ⟨hthis b this hb hthis', inside_of_mentions hp hmem hb (.inl hthis')⟩
  case h_10 => trivial

/-- The methods in `R` hold the entry, and whatever a call statement of one of them has an edge to. -/
theorem Satisfies.confined (h : S.Satisfies q entry) (hp : q.program.WellFormed) (hentry : entry ∈ R)
    (hR : ∀ e ∈ S.edges, e.site.method ∈ R →
      (∃ result call, q.program.stmt? e.site = some (.invoke result call)) → e.callee ∈ R) :
    (S.confined q.program R).Satisfies q entry where
  entry := ⟨h.entry, hentry⟩
  stmt hsite hst := (h.stmt hsite.1 hst).confined hp hsite.2 hst fun {result call m} heq hedge =>
    hR ⟨call.kind, _, m⟩ hedge hsite.2 ⟨result, call, heq ▸ hst⟩

end Facts
end ProgramAnalysis.PointsTo
