import ProgramAnalysis.CallGraph.Basic

/-! Adding edges and methods to a call graph. -/
namespace ProgramAnalysis

namespace CallGraph

variable {g : CallGraph} {site : StmtRef} {m : MethodId} {e e' : CallEdge}

theorem isReachable_iff : g.isReachable m = true ↔ m ∈ g.reachable := by
  simp [isReachable]

theorem hasEdge_iff :
    g.hasEdge site m = true ↔ ∃ e ∈ g.edges, e.site = site ∧ e.callee = m := by
  simp only [hasEdge, Array.any_eq_true', Bool.and_eq_true, beq_iff_eq]

theorem mem_addEdge (hnew : ¬ g.hasEdge e.site e.callee = true) :
    e' ∈ (g.addEdge e).edges ↔ e' ∈ g.edges ∨ e' = e := by
  unfold addEdge
  rw [if_neg hnew]
  exact Array.mem_push

@[simp] theorem addEdge_reachable : (g.addEdge e).reachable = g.reachable := by
  unfold addEdge
  split <;> rfl

theorem toList_addReachable (hnew : ¬ g.isReachable m = true) :
    (g.addReachable m).reachable.toList = g.reachable.toList ++ [m] := by
  unfold addReachable
  rw [if_neg hnew, Array.toList_push]

theorem mem_addReachable {n : MethodId} :
    n ∈ (g.addReachable m).reachable ↔ n ∈ g.reachable ∨ n = m := by
  unfold addReachable
  split
  · next h => exact ⟨.inl, fun hn => hn.elim id fun hn => hn ▸ isReachable_iff.mp h⟩
  · exact Array.mem_push

theorem nodup_addReachable (h : g.reachable.toList.Nodup) :
    (g.addReachable m).reachable.toList.Nodup := by
  by_cases hnew : g.isReachable m = true
  · unfold addReachable
    rw [if_pos hnew]
    exact h
  · rw [toList_addReachable hnew]
    refine List.nodup_append.mpr ⟨h, List.pairwise_singleton _ _, fun a ha b hb => ?_⟩
    rw [List.mem_singleton.mp hb]
    rintro rfl
    exact hnew (isReachable_iff.mpr (Array.mem_toList_iff.mp ha))

@[simp] theorem addReachable_edges : (g.addReachable m).edges = g.edges := by
  unfold addReachable
  split <;> rfl

/-- An edge is added with its kind if the site has edges of that kind only. -/
theorem mem_addEdge_self (hkind : ∀ e' ∈ g.edges, e'.site = e.site → e'.kind = e.kind) :
    e ∈ (g.addEdge e).edges := by
  by_cases h : g.hasEdge e.site e.callee = true
  · obtain ⟨e', he', hsite, hcallee⟩ := hasEdge_iff.mp h
    have heq : e' = e := by
      obtain ⟨kind, site, callee⟩ := e
      obtain ⟨kind', site', callee'⟩ := e'
      have hk := hkind _ he' hsite
      cases hk
      cases hsite
      cases hcallee
      rfl
    unfold addEdge
    rw [if_pos h]
    exact heq ▸ he'
  · exact (mem_addEdge h).mpr (.inr rfl)

theorem of_mem_addEdge (h : e' ∈ (g.addEdge e).edges) : e' ∈ g.edges ∨ e' = e := by
  by_cases hold : g.hasEdge e.site e.callee = true
  · unfold addEdge at h
    rw [if_pos hold] at h
    exact .inl h
  · exact (mem_addEdge hold).mp h

theorem mem_addEdge_of_mem (h : e' ∈ g.edges) : e' ∈ (g.addEdge e).edges := by
  by_cases hold : g.hasEdge e.site e.callee = true
  · unfold addEdge
    rw [if_pos hold]
    exact h
  · exact (mem_addEdge hold).mpr (.inl h)

/-! ### Graphs built by insertion -/

@[simp] theorem addEntry_reachable : (g.addEntry m).reachable = g.reachable := by
  unfold addEntry
  split <;> rfl

@[simp] theorem addEntry_edges : (g.addEntry m).edges = g.edges := by
  unfold addEntry
  split <;> rfl

/-- A call graph starts empty and only ever gets insertions. -/
inductive Built : CallGraph → Prop
  | empty : Built empty
  | addEntry {g : CallGraph} : Built g → ∀ m, Built (g.addEntry m)
  | addReachable {g : CallGraph} : Built g → ∀ m, Built (g.addReachable m)
  | addEdge {g : CallGraph} : Built g → ∀ e, Built (g.addEdge e)

theorem Built.nodup_reachable (h : g.Built) : g.reachable.toList.Nodup := by
  induction h with
  | empty => exact List.nodup_nil
  | addEntry _ m ih => rwa [addEntry_reachable]
  | addReachable _ m ih => exact nodup_addReachable ih
  | addEdge _ e ih => rwa [addEdge_reachable]

/-- There is at most one edge from a site to a callee. -/
theorem Built.nodup_edges (h : g.Built) :
    (g.edges.toList.map fun e => (e.site, e.callee)).Nodup := by
  induction h with
  | empty => exact List.nodup_nil
  | addEntry _ m ih => rwa [addEntry_edges]
  | addReachable _ m ih => rwa [addReachable_edges]
  | @addEdge g _ e ih =>
    by_cases hold : g.hasEdge e.site e.callee = true
    · unfold CallGraph.addEdge
      rwa [if_pos hold]
    · unfold CallGraph.addEdge
      rw [if_neg hold, Array.toList_push, List.map_append]
      refine List.nodup_append.mpr ⟨ih, List.pairwise_singleton _ _, fun x hx y hy heq => ?_⟩
      obtain ⟨e', he', rfl⟩ := List.mem_map.mp hx
      obtain ⟨hsite, hcallee⟩ := Prod.mk.inj (heq.trans (List.mem_singleton.mp hy))
      exact hold (hasEdge_iff.mpr ⟨e', Array.mem_toList_iff.mp he', hsite, hcallee⟩)

theorem Built.nodup_callees (h : g.Built) (site : StmtRef) : (g.callees site).Nodup := by
  have hfrom : ((g.edgesFrom site).map fun e => (e.site, e.callee)).Nodup :=
    h.nodup_edges.sublist (List.filter_sublist.map _)
  have heq : (g.edgesFrom site).map (fun e => (e.site, e.callee)) =
      (g.callees site).map fun m => (site, m) := by
    rw [callees, List.map_map]
    refine List.map_congr_left fun e he => ?_
    rw [Function.comp_apply, beq_iff_eq.mp (List.mem_filter.mp he).2]
  rw [heq] at hfrom
  exact (List.pairwise_map.mp hfrom).imp fun hne heq => hne (congrArg _ heq)

end CallGraph
end ProgramAnalysis
