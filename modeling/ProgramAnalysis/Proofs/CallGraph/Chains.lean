import ProgramAnalysis.Proofs.CallGraph.Closed
import ProgramAnalysis.Proofs.CallGraph.Indexed
import ProgramAnalysis.Proofs.PointsTo.Agreement
import ProgramAnalysis.Proofs.PointsTo.Confinement

/-! Chains of calls. A call graph that either search returns reaches the methods at the end of a chain
from the entry, and no others, where each call stands in the body of the method before it. -/
namespace ProgramAnalysis
open Relation Traced

namespace CallGraph

variable {p : Program} {g g' : CallGraph} {entry m n : MethodId} {e : CallEdge}

/-- A call statement in the body of `m` has an edge to `n`. -/
def Calls (p : Program) (g : CallGraph) (m n : MethodId) : Prop :=
  ∃ e ∈ g.edges, e.site.method = m ∧ e.callee = n ∧
    ∃ result call, p.stmt? e.site = some (.invoke result call)

/-- `m` is the entry or at the end of a chain of calls from it. -/
def ChainTo (p : Program) (g : CallGraph) (entry m : MethodId) : Prop :=
  ReflTransGen (Calls p g) entry m

theorem ChainTo.mono (h : ChainTo p g entry m) (hedges : ∀ e ∈ g.edges, e ∈ g'.edges) :
    ChainTo p g' entry m :=
  ReflTransGen.mono (fun _ _ ⟨e, he, hcall⟩ => ⟨e, hedges e he, hcall⟩) _ _ h

theorem ChainTo.reachable (h : ChainTo p g entry m) (hg : g.Closed) (hentry : entry ∈ g.reachable) :
    m ∈ g.reachable := by
  induction h with
  | refl => exact hentry
  | tail _ hcall _ =>
    obtain ⟨e, he, -, rfl, -⟩ := hcall
    exact hg e he

/-- The graph has an edge for the call, if not with this kind. -/
theorem exists_mem_addEdge (g : CallGraph) (e : CallEdge) :
    ∃ e' ∈ (g.addEdge e).edges, e'.site = e.site ∧ e'.callee = e.callee := by
  by_cases hold : g.hasEdge e.site e.callee = true
  · obtain ⟨e', he', hcall⟩ := hasEdge_iff.mp hold
    exact ⟨e', mem_addEdge_of_mem he', hcall⟩
  · exact ⟨e, (mem_addEdge hold).mpr (.inr rfl), rfl, rfl⟩

/-- A new edge from the end of a chain makes a longer one. -/
theorem ChainTo.addEdge (h : ChainTo p g entry e.site.method)
    (hcall : ∃ result call, p.stmt? e.site = some (.invoke result call)) :
    ChainTo p (g.addEdge e) entry e.callee := by
  obtain ⟨e', he', hsite, hcallee⟩ := exists_mem_addEdge g e
  refine (h.mono fun _ => mem_addEdge_of_mem).tail ⟨e', he', ?_, hcallee, ?_⟩
  · rw [hsite]
  · rw [hsite]
    exact hcall

end CallGraph

/-! ### The search of the class hierarchy -/

namespace ClassHierarchy

variable {p : Program} {s t : Search} {entry m callee : MethodId} {site : StmtRef}

/-- What is reached is at the end of a chain, and what waits has been reached. -/
structure Search.Chained (p : Program) (entry : MethodId) (s : Search) : Prop where
  reached : ∀ m ∈ s.graph.reachable, s.graph.ChainTo p entry m
  queued : ∀ m ∈ s.queue, m ∈ s.graph.reachable

theorem Search.chained_link (kind : CallKind) (hs : s.Chained p entry)
    (hm : site.method ∈ s.graph.reachable)
    (hcall : ∃ result call, p.stmt? site = some (.invoke result call)) :
    Ensures (s.link kind site callee) fun t =>
      t.Chained p entry ∧ site.method ∈ t.graph.reachable := by
  have hnew := (hs.reached _ hm).addEdge (e := ⟨kind, site, callee⟩) hcall
  have hold : ∀ k ∈ s.graph.reachable,
      (s.graph.addEdge ⟨kind, site, callee⟩).ChainTo p entry k :=
    fun k hk => (hs.reached k hk).mono fun _ => CallGraph.mem_addEdge_of_mem
  unfold Search.link
  dsimp only
  split
  · refine ensures_pure.mpr ⟨⟨fun k hk => ?_, fun k hk => ?_⟩, ?_⟩ <;>
      rw [CallGraph.addEdge_reachable] at *
    · exact hold k hk
    · exact hs.queued k hk
    · exact hm
  · refine ensures_true.bind fun _ _ => ensures_pure.mpr ⟨⟨fun k hk => ?_, fun k hk => ?_⟩, ?_⟩ <;>
      simp only [CallGraph.mem_addReachable, CallGraph.addEdge_reachable] at *
    · refine CallGraph.ChainTo.mono ?_ fun e he => CallGraph.addReachable_edges.symm ▸ he
      rcases hk with hk | rfl
      · exact hold k hk
      · exact hnew
    · rcases List.mem_append.mp hk with hk | hk
      · exact .inl (hs.queued k hk)
      · exact .inr (List.mem_singleton.mp hk)
    · exact .inl hm

theorem Search.chained_visit (hs : s.Chained p entry) (hm : m ∈ s.graph.reachable) :
    Ensures (Search.visit p s m) (·.Chained p entry) := by
  unfold Search.visit
  have hbody : Ensures (liftM (p.getBody m)) fun body => ∀ b, body = some b → p.body? m = some b := by
    rintro _ h b rfl
    exact (Program.getBody_ok_iff.mp h).2
  refine hbody.bind fun body hbody => ?_
  cases body with
  | none => exact ensures_pure.mpr hs
  | some b =>
    have hb := hbody b rfl
    have hcalls : Ensures (b.calls.foldlM (Search.visitCall p m) s) fun t =>
        t.Chained p entry ∧ m ∈ t.graph.reachable := by
      refine Ensures.foldlM (fun s c hc hs => ?_) ⟨hs, hm⟩
      obtain ⟨i, result, call⟩ := c
      have hcall : p.stmt? ⟨m, i⟩ = some (.invoke result call) :=
        Program.stmt?_eq_some_iff.mpr ⟨b, hb, mem_calls.mp hc⟩
      have hlinks : ∀ found : List MethodId,
          Ensures (found.foldlM (fun s callee => s.link call.kind ⟨m, i⟩ callee) s) fun t =>
            t.Chained p entry ∧ m ∈ t.graph.reachable := fun found =>
        Ensures.foldlM (fun t callee _ ht => chained_link _ ht.1 ht.2 ⟨result, call, hcall⟩) hs
      unfold Search.visitCall
      refine ensures_true.bind fun found _ => ?_
      dsimp only
      split
      · exact ensures_true.bind fun _ _ => hlinks found
      · exact hlinks found
    exact hcalls.mono fun t ht => ht.1

theorem Search.chained_run (fuel : Nat) (hs : s.Chained p entry) :
    Ensures (Search.run p fuel s) fun g => ∀ m ∈ g.reachable, g.ChainTo p entry m := by
  induction fuel generalizing s with
  | zero => exact ensures_pure.mpr hs.reached
  | succ fuel ih =>
    unfold Search.run
    split
    · exact ensures_pure.mpr hs.reached
    · next m queue hqueue =>
      have hm : m ∈ s.graph.reachable := hs.queued m (hqueue ▸ List.mem_cons_self)
      have hpop : Search.Chained p entry { s with queue } :=
        ⟨hs.reached, fun k hk => hs.queued k (hqueue ▸ List.mem_cons_of_mem m hk)⟩
      exact (chained_visit hpop hm).bind fun t ht => ih ht

theorem chained_build (p : Program) (entry : MethodId) :
    Ensures (build p entry) fun g => ∀ m ∈ g.reachable, g.ChainTo p entry m := by
  unfold build
  refine (Search.chained_run _ ⟨fun m hm => ?_, fun m hm => ?_⟩).bind fun g hg =>
    ensures_true.bind fun _ _ => ensures_pure.mpr hg
  · rcases CallGraph.mem_addReachable.mp hm with hm | rfl
    · exact absurd hm (by simp [CallGraph.empty])
    · exact .refl
  · exact CallGraph.mem_addReachable.mpr (.inr (List.mem_singleton.mp hm))

theorem build_chains {g : CallGraph} (h : (build p entry).result = .ok g) :
    m ∈ g.reachable ↔ g.ChainTo p entry m := by
  have hentry : entry ∈ g.reachable := stable_build (CallGraph.stable_mem p entry)
    (CallGraph.mem_addReachable.mpr (.inr rfl)) g h
  have hclosed := (CallGraph.Found.hierarchy h).closed
  exact ⟨chained_build p entry g h m, fun hm => hm.reachable hclosed hentry⟩

end ClassHierarchy

/-! ### The points-to solver -/

namespace PointsTo

variable {q : Problem} {s : State} {entry : MethodId}

/-- The facts about the methods on chains satisfy the constraints by themselves, so that there are no
others in the least solution. -/
theorem chained_solve (ha : q.program.Accepted) (hthis : q.program.OwnsThis)
    (hparams : q.program.OwnsParams) (hentry : q.entry.or q.program.entry = some entry)
    (hlt : entry.index < q.program.methods.size) (h : (solve q .initial).result = .ok s) :
    ∀ m ∈ s.calls.reachable, s.calls.ChainTo q.program entry m := by
  obtain ⟨classes, ha', hc', hsolve⟩ := exists_padded_solve ha hentry h
  let padded : Program := { q.program with classes }
  obtain ⟨s', hsolve', hfin, hreach, hleast⟩ :=
    solve_finished (q := q.on padded) ⟨ha', hc', hthis, hparams⟩ hentry hlt
  cases hsolve.symm.trans hsolve'
  have hsat := (hfin.satisfies hreach).confined (R := {m | s.calls.ChainTo padded entry m})
    (ha'.wellFormed hthis hparams) .refl fun e he hsite hcall => hsite.tail ⟨e, he, rfl, rfl, hcall⟩
  obtain ⟨-, -, hreachable⟩ := (hleast _ hsat).facts_le
  exact fun m hm => (hreachable hm).2

theorem solve_chains (ha : q.program.Accepted) (hthis : q.program.OwnsThis)
    (hparams : q.program.OwnsParams) (h : (solve q .initial).result = .ok s) :
    ∃ entry, q.entry.or q.program.entry = some entry ∧
      ∀ m, m ∈ s.calls.reachable ↔ s.calls.ChainTo q.program entry m := by
  obtain ⟨entry, hentry, hlt, hstable⟩ := stable_solve q s h
  have hsound := hstable _ (CallGraph.stable_sound _ entry) (CallGraph.sound_start _ entry)
  have hmem : entry ∈ s.calls.reachable := hstable _ (CallGraph.stable_mem q.program entry)
    (CallGraph.mem_addReachable.mpr (.inr rfl))
  exact ⟨entry, hentry, fun m => ⟨chained_solve ha hthis hparams hentry hlt h m,
    fun hm => hm.reachable hsound.closed hmem⟩⟩

end PointsTo

/-! ### Both call graphs -/

namespace CallGraph

/-- Whatever is inserted, the indexes of a call graph say what its lists say. The searches make such
call graphs, and a method is reachable in them if and only if it is the entry or at the end of a
chain of calls from it. -/
theorem reachable_iff_chain :
    (∀ history, (IndexedCallGraph.after history).Consistent history) ∧
    (∀ p entry g, (ClassHierarchy.build p entry).result = .ok g →
      (∃ history, (IndexedCallGraph.after history).graph = g) ∧
        ∀ m, m ∈ g.reachable ↔ g.ChainTo p entry m) ∧
    ∀ (q : PointsTo.Problem) s, q.program.Accepted → q.program.OwnsThis → q.program.OwnsParams →
      (PointsTo.solve q .initial).result = .ok s →
      (∃ history, (IndexedCallGraph.after history).graph = s.calls) ∧
        ∃ entry, q.entry.or q.program.entry = some entry ∧
          ∀ m, m ∈ s.calls.reachable ↔ s.calls.ChainTo q.program entry m := by
  have hhistory : ∀ {g : CallGraph}, g.Built →
      ∃ history, (IndexedCallGraph.after history).graph = g := by
    intro g hg
    obtain ⟨history, rfl⟩ := hg.exists_history
    exact ⟨history, (IndexedCallGraph.inStep_after history).2⟩
  refine ⟨IndexedCallGraph.consistent_after, fun p entry g h => ⟨?_, fun m => ?_⟩,
    fun q s ha hthis hparams h => ⟨?_, PointsTo.solve_chains ha hthis hparams h⟩⟩
  · exact hhistory (Found.hierarchy h).built
  · exact ClassHierarchy.build_chains h
  · have hfound : Found q.program s.calls :=
      .pointsTo (r := s.result) rfl (Traced.bind_ok_iff.mpr ⟨s, h, rfl⟩)
    exact hhistory hfound.built

/-- `A.id` can be called by the class of its call, but not on the only object there is. -/
theorem reachable_iff_chain_sample : ∃ g s,
    (ClassHierarchy.build .sample ⟨1⟩).result = .ok g ∧
    (PointsTo.solve ⟨.sample, .allocationSite, none⟩ .initial).result = .ok s ∧
    g.ChainTo .sample ⟨1⟩ ⟨0⟩ ∧ s.calls.ChainTo .sample ⟨1⟩ ⟨2⟩ ∧
    ¬ s.calls.ChainTo .sample ⟨1⟩ ⟨0⟩ := by
  have hrun : (do
      let g ← ClassHierarchy.build .sample ⟨1⟩
      let s ← PointsTo.solve ⟨.sample, .allocationSite, none⟩ .initial
      return decide (⟨0⟩ ∈ g.reachable ∧ ⟨2⟩ ∈ s.calls.reachable ∧ ⟨0⟩ ∉ s.calls.reachable) :
        Traced Bool).result = .ok true := by
    decide +kernel
  obtain ⟨g, hg, hrun⟩ := Traced.bind_ok_iff.mp hrun
  obtain ⟨s, hs, hrun⟩ := Traced.bind_ok_iff.mp hrun
  obtain ⟨hsuper, hsub, hnot⟩ := of_decide_eq_true (Except.ok.inj hrun)
  obtain ⟨-, hhierarchy, hpointsTo⟩ := reachable_iff_chain
  obtain ⟨-, entry, hentry, hiff⟩ := hpointsTo ⟨.sample, .allocationSite, none⟩ s
    Program.accepted_sample Program.proper_sample.this Program.proper_sample.params hs
  cases hentry
  refine ⟨g, s, hg, hs, ((hhierarchy _ _ g hg).2 _).mp hsuper, (hiff _).mp hsub, ?_⟩
  exact fun h => hnot ((hiff _).mpr h)

end CallGraph
end ProgramAnalysis
