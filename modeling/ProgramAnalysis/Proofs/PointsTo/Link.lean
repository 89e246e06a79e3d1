import ProgramAnalysis.Proofs.CallGraph.Basic
import ProgramAnalysis.Proofs.Ir.UseSites
import ProgramAnalysis.Proofs.PointsTo.Invariant
import ProgramAnalysis.Proofs.Program.Lookup
import ProgramAnalysis.Proofs.Traced

/-! Binding a call to a callee. Every call edge of a state is bound: its callee is reached, and
arguments and returned variables flow. `link` adds an edge and binds it, and changes nothing for an
edge that is there. -/
namespace ProgramAnalysis

namespace PointsTo

/-- The flows that bind a call to a body. -/
def bindFlows (call : Call) (result : Option VarId) (b : Body) : List (Pointer × Pointer) :=
  (call.args.zip b.params).map (fun f => (.var f.1, .var f.2)) ++
    result.toList.flatMap fun x => b.returnVars.map fun r => (.var r, .var x)

def State.flows (s : State) (fs : List (Pointer × Pointer)) : State :=
  fs.foldl (fun s f => s.flow f.1 f.2) s

variable {q : Problem} {S : Facts} {s t u : State} {m : MethodId} {site : StmtRef}
  {result : Option VarId} {call : Call} {b : Body} {f : Pointer × Pointer}

theorem State.bind_eq (s : State) (call : Call) (result : Option VarId) (b : Body) :
    s.bind call result b = s.flows (bindFlows call result b) := by
  unfold State.bind State.flows bindFlows
  rw [List.foldl_append, List.foldl_map]
  cases result with
  | none => rfl
  | some x =>
    simp only [Option.toList_some, List.flatMap_cons, List.flatMap_nil, List.append_nil,
      List.foldl_map]

theorem mem_bindFlows : f ∈ bindFlows call result b ↔
    (∃ a x, (a, x) ∈ call.args.zip b.params ∧ f = (.var a, .var x)) ∨
      ∃ x i r, result = some x ∧ b.stmt? i = some (.ret (some r)) ∧ f = (.var r, .var x) := by
  simp only [bindFlows, List.mem_append, List.mem_map, List.mem_flatMap, Option.mem_toList,
    Body.mem_returnVars, Prod.exists]
  refine or_congr ⟨?_, ?_⟩ ⟨?_, ?_⟩
  · intro hr
    obtain ⟨a, x, h, rfl⟩ := hr
    exact ⟨a, x, h, rfl⟩
  · intro hr
    obtain ⟨a, x, h, rfl⟩ := hr
    exact ⟨a, x, h, rfl⟩
  · intro hr
    obtain ⟨x, hx, r, ⟨i, hi⟩, rfl⟩ := hr
    exact ⟨x, i, r, hx, hi, rfl⟩
  · intro hr
    obtain ⟨x, i, r, hx, hi, rfl⟩ := hr
    exact ⟨x, hx, r, ⟨i, hi⟩, rfl⟩

/-! ### Several flows -/

namespace State

variable {fs : List (Pointer × Pointer)}

@[simp] theorem flows_heap : (s.flows fs).heap = s.heap := by
  unfold flows
  induction fs generalizing s with
  | nil => rfl
  | cons f fs ih => rw [List.foldl_cons, ih, flow_heap]

@[simp] theorem flows_calls : (s.flows fs).calls = s.calls := by
  unfold flows
  induction fs generalizing s with
  | nil => rfl
  | cons f fs ih => rw [List.foldl_cons, ih, flow_calls]

end State

theorem Inv.flows {fs : List (Pointer × Pointer)} (hs : Inv q S s)
    (hf : ∀ f ∈ fs, Admits q S s.heap f.1 f.2) : Inv q S (s.flows fs) ∧ Extends s (s.flows fs) ∧
      ∀ f ∈ fs, (s.flows fs).graph.Flows f.1 f.2 := by
  unfold State.flows
  induction fs generalizing s with
  | nil => exact ⟨hs, .refl s, fun _ h => absurd h List.not_mem_nil⟩
  | cons f fs ih =>
    have hfirst := hs.flow (hf f List.mem_cons_self)
    have hext := Extends.flow hs.wellFormed f.1 f.2
    have hrest : ∀ f' ∈ fs, Admits q S (s.flow f.1 f.2).heap f'.1 f'.2 := by
      rw [State.flow_heap]
      exact fun f' h => hf f' (List.mem_cons_of_mem f h)
    obtain ⟨hinv, hext', hflows⟩ := ih hfirst hrest
    refine ⟨hinv, hext.trans hext', fun f' h => ?_⟩
    rcases List.mem_cons.mp h with rfl | h
    · exact hext'.flows (hs.wellFormed.flows_flow.mpr (.inr ⟨rfl, rfl⟩))
    · exact hflows f' h

/-! ### Calls -/

theorem Inv.withCalls {calls : CallGraph} {pending : List MethodId} (hs : Inv q S s)
    (hedge : ∀ {e}, e ∈ calls.edges → AdmitsEdge q S e)
    (hreach : ∀ {m}, m ∈ calls.reachable →
      m ∈ S.reachable ∧ m.index < q.program.methods.size)
    (hnodup : calls.reachable.toList.Nodup) (hpend : pending <:+ calls.reachable.toList) :
    Inv q S { s with calls, pending } where
  wellFormed := ⟨hs.wellFormed.graph, hs.wellFormed.work_lt⟩
  heap := hs.heap
  allocated := hs.allocated
  named := hs.named
  carried := hs.carried
  justified := hs.justified
  admitted := hs.admitted
  edge := hedge
  reachable := hreach
  nodup := hnodup
  pending := hpend

theorem Inv.reach (hs : Inv q S s) (hm : m ∈ S.reachable)
    (hlt : m.index < q.program.methods.size) : Traced.Returns (s.reach m) fun t =>
      Inv q S t ∧ Extends s t ∧ m ∈ t.calls.reachable ∧ t.calls.edges = s.calls.edges ∧
        t.heap = s.heap := by
  unfold State.reach
  by_cases hold : s.calls.isReachable m = true
  · rw [if_pos hold]
    simp [hs, Extends.refl, CallGraph.isReachable_iff.mp hold]
  · rw [if_neg hold, Traced.returns_log_bind, Traced.returns_pure]
    have hlist := CallGraph.toList_addReachable hold
    refine ⟨hs.withCalls ?_ ?_ (CallGraph.nodup_addReachable hs.nodup) ?_,
      ⟨s.heap.le_refl, id, Iff.rfl, id, id, ⟨[m], hlist, rfl⟩, ?_⟩, ?_,
      s.calls.addReachable_edges, rfl⟩
    · rw [CallGraph.addReachable_edges]
      exact hs.edge
    · intro m' h
      rcases CallGraph.mem_addReachable.mp h with h | rfl
      · exact hs.reachable h
      · exact ⟨hm, hlt⟩
    · rw [hlist]
      obtain ⟨done, hdone⟩ := hs.pending
      exact ⟨done, by rw [← hdone, List.append_assoc]⟩
    · rw [CallGraph.addReachable_edges]
      exact id
    · exact CallGraph.mem_addReachable.mpr (.inr rfl)

/-- The callee is reached, and the call is bound to its body. -/
structure Bound (q : Problem) (s : State) (e : CallEdge) : Prop where
  reachable : e.callee ∈ s.calls.reachable
  flows : ∀ {result call b f}, q.program.stmt? e.site = some (.invoke result call) →
    q.program.body? e.callee = some b → f ∈ bindFlows call result b → s.graph.Flows f.1 f.2

theorem Bound.mono {e : CallEdge} (hst : Grows s t) (h : Bound q s e) : Bound q t e :=
  ⟨hst.reachable h.reachable, fun hs hb hf => hst.flows (h.flows hs hb hf)⟩

/-- `t` extends `s`, and the calls linked since are bound. -/
structure Progress (q : Problem) (s t : State) : Prop extends Extends s t where
  linked : ∀ {e}, e ∈ t.calls.edges → e ∈ s.calls.edges ∨ Bound q t e

theorem Progress.of_edges (h : Extends s t) (he : t.calls.edges = s.calls.edges) :
    Progress q s t :=
  ⟨h, fun hm => .inl (he ▸ hm)⟩

theorem Progress.refl (s : State) : Progress q s s := .of_edges (.refl s) rfl

theorem Progress.trans (hst : Progress q s t) (htu : Progress q t u) : Progress q s u := by
  refine ⟨hst.toExtends.trans htu.toExtends, fun he => ?_⟩
  rcases htu.linked he with he | hb
  · exact (hst.linked he).imp_right fun hb => hb.mono htu.toExtends.grows
  · exact .inr hb

/-- Facts in which a call is linked admit the flows that bind it. -/
theorem Facts.Linked.admits (hp : Serves q S) {h : Heap}
    (hl : S.Linked q.program site result call m)
    (hs : q.program.stmt? site = some (.invoke result call)) (hsite : site.method ∈ S.reachable)
    (hb : q.program.body? m = some b) (hf : f ∈ bindFlows call result b) :
    Admits q S h f.1 f.2 := by
  rcases mem_bindFlows.mp hf with ⟨a, x, hax, rfl⟩ | ⟨x, i, r, hx, hr, rfl⟩
  · obtain ⟨ha, hx⟩ := List.of_mem_zip hax
    have hlive := hp.params hl.reachable hb hx
    refine ⟨(hp.accepted.owns_use hs ?_).lt, hlive.lt, hlive, fun hl₁ hl₂ => ?_⟩
    · exact List.mem_append_right _ ha
    · cases hl₁
      cases hl₂
      exact hl.argument hb hax
  · have hdef : (Stmt.invoke result call).def? = some x := hx
    have howns := hp.accepted.owns_def hs hdef
    have hret : q.program.stmt? ⟨m, i⟩ = some (.ret (some r)) :=
      Program.stmt?_eq_some_iff.mpr ⟨b, hb, hr⟩
    refine ⟨(hp.accepted.owns_use hret ?_).lt, howns.lt,
      Live.of_owns howns hsite (Program.lt_of_stmt? hs), fun hl₁ hl₂ => ?_⟩
    · exact List.mem_singleton.mpr rfl
    · cases hl₁
      cases hl₂
      exact hl.returned hb hx hr

theorem Inv.link (hp : Serves q S) (hs : Inv q S s)
    (hstmt : q.program.stmt? site = some (.invoke result call))
    (hsite : site.method ∈ S.reachable) (hl : S.Linked q.program site result call m)
    (hlt : m.index < q.program.methods.size) :
    Traced.Returns (link q s site call result m) fun t =>
      Inv q S t ∧ Progress q s t ∧ ⟨call.kind, site, m⟩ ∈ t.calls.edges := by
  unfold PointsTo.link
  by_cases hold : s.calls.hasEdge site m = true
  · rw [if_pos hold, Traced.returns_pure]
    obtain ⟨⟨kind, site', m'⟩, he, rfl, rfl⟩ := CallGraph.hasEdge_iff.mp hold
    obtain ⟨result', call', hstmt', hkind, _⟩ := hs.edge he
    rw [hstmt] at hstmt'
    cases hstmt'
    refine ⟨hs, .refl s, ?_⟩
    rw [hkind]
    exact he
  · rw [if_neg hold, Traced.returns_log_bind]
    let e : CallEdge := ⟨call.kind, site, m⟩
    have hmem : ∀ {e'}, e' ∈ (s.calls.addEdge e).edges ↔ e' ∈ s.calls.edges ∨ e' = e :=
      CallGraph.mem_addEdge hold
    have hlinked : Inv q S { s with calls := s.calls.addEdge e } := by
      refine hs.withCalls (fun {e'} he' => ?_) ?_ ?_ ?_
      · rcases hmem.mp he' with he' | rfl
        · exact hs.edge he'
        · exact ⟨result, call, hstmt, rfl, hl⟩
      all_goals rw [CallGraph.addEdge_reachable]
      · exact hs.reachable
      · exact hs.nodup
      · exact hs.pending
    have hext : Extends s { s with calls := s.calls.addEdge e } :=
      ⟨s.heap.le_refl, id, Iff.rfl, id, id, ⟨[], by simp, by simp⟩, fun he' => hmem.mpr (.inl he')⟩
    refine (hlinked.reach hl.reachable hlt).bind ?_
    intro t ht
    obtain ⟨hinv, hext', hreach, hedges, -⟩ := ht
    have hedge : ∀ {e'}, e' ∈ t.calls.edges ↔ e' ∈ s.calls.edges ∨ e' = e := fun {e'} => by
      rw [hedges]
      exact hmem
    rw [Traced.returns_lift_bind (Program.getBody_eq hlt)]
    cases hb : q.program.body? m with
    | none =>
      rw [Traced.returns_pure]
      refine ⟨hinv, ⟨hext.trans hext', fun {e'} he' => ?_⟩, hedge.mpr (.inr rfl)⟩
      refine (hedge.mp he').imp_right fun h => ?_
      subst h
      refine ⟨hreach, fun _ hb' _ => ?_⟩
      rw [hb] at hb'
      cases hb'
    | some body =>
      rw [Traced.returns_pure, State.bind_eq]
      obtain ⟨hinv', hext'', hflows⟩ := hinv.flows fun f hf => hl.admits hp hstmt hsite hb hf
      refine ⟨hinv', ⟨(hext.trans hext').trans hext'', fun {e'} he' => ?_⟩, ?_⟩
      · rw [State.flows_calls] at he'
        refine (hedge.mp he').imp_right fun h => ?_
        subst h
        refine ⟨hext''.reachable hreach, fun {result' call' b' f} hs' hb' hf => ?_⟩
        rw [hstmt] at hs'
        rw [hb] at hb'
        cases hs'
        cases hb'
        exact hflows f hf
      · rw [State.flows_calls]
        exact hedge.mpr (.inr rfl)

end PointsTo
end ProgramAnalysis
