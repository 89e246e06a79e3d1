import Mathlib.Data.List.Induction
import ProgramAnalysis.CallGraph.Indexed
import ProgramAnalysis.Proofs.CallGraph.Basic
import ProgramAnalysis.Proofs.Firsts

/-! The indexes of a call graph stay in step with its lists: after any insertions the lists hold the
first insertion of each method and of each call, and every lookup reads off the list of edges. -/
namespace ProgramAnalysis

/-- The call that an edge belongs to. -/
def CallEdge.call (e : CallEdge) : StmtRef × MethodId := (e.site, e.callee)

inductive Insertion where
  | entry (m : MethodId)
  | reachable (m : MethodId)
  | edge (e : CallEdge)

namespace Insertion

def entry? : Insertion → Option MethodId
  | .entry m => some m
  | _ => none

def reachable? : Insertion → Option MethodId
  | .reachable m => some m
  | _ => none

def edge? : Insertion → Option CallEdge
  | .edge e => some e
  | _ => none

end Insertion

/-! ### Insertions into the lists -/

namespace CallGraph

variable {g : CallGraph} {site : StmtRef} {m : MethodId} {e : CallEdge}

def insert (g : CallGraph) : Insertion → CallGraph
  | .entry m => g.addEntry m
  | .reachable m => g.addReachable m
  | .edge e => g.addEdge e

def after (history : List Insertion) : CallGraph := history.foldl insert empty

theorem after_concat (history : List Insertion) (i : Insertion) :
    after (history ++ [i]) = (after history).insert i := by
  simp [after]

theorem Built.exists_history (h : g.Built) : ∃ history, after history = g := by
  induction h with
  | empty => exact ⟨[], rfl⟩
  | addEntry _ m ih =>
    obtain ⟨history, rfl⟩ := ih
    exact ⟨history ++ [.entry m], after_concat ..⟩
  | addReachable _ m ih =>
    obtain ⟨history, rfl⟩ := ih
    exact ⟨history ++ [.reachable m], after_concat ..⟩
  | addEdge _ e ih =>
    obtain ⟨history, rfl⟩ := ih
    exact ⟨history ++ [.edge e], after_concat ..⟩

theorem addEntry_entries : (g.addEntry m).entries =
    if m ∈ g.entries then g.entries else g.entries ++ [m] := by
  unfold addEntry
  split <;> rfl

@[simp] theorem addReachable_entries : (g.addReachable m).entries = g.entries := by
  unfold addReachable
  split <;> rfl

@[simp] theorem addEdge_entries : (g.addEdge e).entries = g.entries := by
  unfold addEdge
  split <;> rfl

theorem addReachable_toList : (g.addReachable m).reachable.toList =
    if m ∈ g.reachable.toList then g.reachable.toList else g.reachable.toList ++ [m] := by
  unfold addReachable
  simp only [isReachable_iff, Array.mem_toList_iff]
  split
  · rfl
  · exact Array.toList_push

theorem hasEdge_iff_mem_call :
    g.hasEdge e.site e.callee = true ↔ e.call ∈ g.edges.toList.map CallEdge.call := by
  rw [hasEdge_iff, List.mem_map]
  simp [CallEdge.call]

theorem addEdge_toList : (g.addEdge e).edges.toList =
    if e.call ∈ g.edges.toList.map CallEdge.call then g.edges.toList
    else g.edges.toList ++ [e] := by
  unfold addEdge
  simp only [hasEdge_iff_mem_call]
  split
  · rfl
  · exact Array.toList_push

theorem hasEdge_push : { g with edges := g.edges.push e }.hasEdge site m =
    if e.call = (site, m) then true else g.hasEdge site m := by
  unfold hasEdge CallEdge.call
  by_cases h : (e.site, e.callee) = (site, m)
  · obtain ⟨rfl, rfl⟩ := Prod.mk.inj h
    simp
  · have hnot : (e.site == site && e.callee == m) = false := by simpa using h
    simp [h, hnot]

theorem callees_push : { g with edges := g.edges.push e }.callees site =
    if e.site = site then g.callees site ++ [e.callee] else g.callees site := by
  unfold callees edgesFrom
  by_cases h : e.site = site <;> simp [h]

theorem callers_push : { g with edges := g.edges.push e }.callers m =
    if e.callee = m then g.callers m ++ [e.site] else g.callers m := by
  unfold callers
  by_cases h : e.callee = m <;> simp [h]

/-- What the lists of a call graph hold after insertions: the first one of each key. -/
structure Holds (g : CallGraph) (history : List Insertion) : Prop where
  entries : g.entries = firsts id (history.filterMap Insertion.entry?)
  reachable : g.reachable.toList = firsts id (history.filterMap Insertion.reachable?)
  edges : g.edges.toList = firsts CallEdge.call (history.filterMap Insertion.edge?)

theorem holds_after (history : List Insertion) : (after history).Holds history := by
  induction history using List.reverseRecOn with
  | nil => exact ⟨rfl, rfl, rfl⟩
  | append_singleton history i ih =>
    rw [after_concat]
    constructor <;> rw [firsts_filterMap_concat]
    · rw [← ih.entries]
      cases i with
      | entry m =>
        simp only [Insertion.entry?, List.map_id, id_eq]
        exact addEntry_entries
      | reachable m => exact addReachable_entries
      | edge e => exact addEdge_entries
    · rw [← ih.reachable]
      cases i with
      | entry m => exact congrArg Array.toList addEntry_reachable
      | reachable m =>
        simp only [Insertion.reachable?, List.map_id, id_eq]
        exact addReachable_toList
      | edge e => exact congrArg Array.toList addEdge_reachable
    · rw [← ih.edges]
      cases i with
      | entry m => exact congrArg Array.toList addEntry_edges
      | reachable m => exact congrArg Array.toList addReachable_edges
      | edge e =>
        simp only [Insertion.edge?]
        -- the two sides decide the membership by different instances
        exact addEdge_toList.trans (ite_congr rfl (fun _ => rfl) fun _ => rfl).symm

end CallGraph

/-! ### The indexes -/

namespace IndexedCallGraph

variable {g : IndexedCallGraph} {site : StmtRef} {m : MethodId} {e : CallEdge}

/-- What the indexes tell is what the lists hold. -/
structure InStep (g : IndexedCallGraph) : Prop where
  reached : ∀ m, g.isReachable m = g.graph.isReachable m
  linked : ∀ site m, g.hasEdge site m = g.graph.hasEdge site m
  calleesAt : ∀ site, g.callees site = g.graph.callees site
  callersOf : ∀ m, g.callers m = g.graph.callers m

def insert (g : IndexedCallGraph) : Insertion → IndexedCallGraph
  | .entry m => g.addEntry m
  | .reachable m => (g.addReachable m).2
  | .edge e => (g.addEdge e).2

def after (history : List Insertion) : IndexedCallGraph := history.foldl insert empty

theorem InStep.addReachable_graph (h : g.InStep) (m : MethodId) :
    (g.addReachable m).2.graph = g.graph.addReachable m := by
  unfold addReachable CallGraph.addReachable
  rw [h.reached]
  split <;> rfl

theorem InStep.addEdge_graph (h : g.InStep) (e : CallEdge) :
    (g.addEdge e).2.graph = g.graph.addEdge e := by
  unfold addEdge CallGraph.addEdge
  rw [h.linked]
  split <;> rfl

theorem inStep_empty : empty.InStep where
  reached _ := Array.contains_empty.symm
  linked _ _ := Array.any_empty.symm
  calleesAt _ := rfl
  callersOf _ := rfl

theorem InStep.addEntry (h : g.InStep) (m : MethodId) : (g.addEntry m).InStep := by
  have hreachable := CallGraph.addEntry_reachable (g := g.graph) (m := m)
  have hedges := CallGraph.addEntry_edges (g := g.graph) (m := m)
  refine ⟨fun n => (h.reached n).trans ?_, fun site n => (h.linked site n).trans ?_,
    fun site => (h.calleesAt site).trans ?_, fun n => (h.callersOf n).trans ?_⟩
  · unfold CallGraph.isReachable
    exact hreachable ▸ rfl
  · unfold CallGraph.hasEdge
    exact hedges ▸ rfl
  · unfold CallGraph.callees CallGraph.edgesFrom
    exact hedges ▸ rfl
  · unfold CallGraph.callers
    exact hedges ▸ rfl

theorem InStep.addReachable (h : g.InStep) (m : MethodId) : (g.addReachable m).2.InStep := by
  unfold IndexedCallGraph.addReachable
  split
  · exact h
  · refine ⟨fun n => ?_, h.linked, h.calleesAt, h.callersOf⟩
    have hn := h.reached n
    unfold isReachable CallGraph.isReachable at *
    rw [Bool.eq_iff_iff] at *
    simp only [HandleSet.contains_iff, HandleSet.mem_insert] at *
    simp [hn, or_comm]

theorem InStep.addEdge (h : g.InStep) (e : CallEdge) : (g.addEdge e).2.InStep := by
  unfold IndexedCallGraph.addEdge
  split
  · exact h
  · refine ⟨h.reached, fun site m => ?_, fun site => ?_, fun m => ?_⟩
    · rw [CallGraph.hasEdge_push, ← h.linked]
      unfold hasEdge CallEdge.call
      rw [Table.get?_insert]
      split <;> rfl
    · rw [CallGraph.callees_push, ← h.calleesAt]
      show ((g.calleesAt.insert _ _).get? site).getD [] = _
      rw [Table.get?_insert]
      split
      · next hsite => rw [Option.getD_some, hsite]
      · rfl
    · rw [CallGraph.callers_push, ← h.callersOf]
      show ((g.callersOf.insert _ _).get? m).getD [] = _
      rw [Table.get?_insert]
      split
      · next hm => rw [Option.getD_some, hm]
      · rfl

theorem after_concat (history : List Insertion) (i : Insertion) :
    after (history ++ [i]) = (after history).insert i := by
  simp [after]

/-- The indexes stay in step, and the lists are those of insertions without indexes. -/
theorem inStep_after (history : List Insertion) :
    (after history).InStep ∧ (after history).graph = CallGraph.after history := by
  induction history using List.reverseRecOn with
  | nil => exact ⟨inStep_empty, rfl⟩
  | append_singleton history i ih =>
    obtain ⟨hstep, hgraph⟩ := ih
    rw [after_concat, CallGraph.after_concat, ← hgraph]
    cases i with
    | entry m => exact ⟨hstep.addEntry m, rfl⟩
    | reachable m => exact ⟨hstep.addReachable m, hstep.addReachable_graph m⟩
    | edge e => exact ⟨hstep.addEdge e, hstep.addEdge_graph e⟩

/-- An insertion tells that it was new exactly when the methods become more. -/
theorem addReachable_fst (m : MethodId) : (g.addReachable m).1 = true ↔
    g.graph.reachable.size < (g.addReachable m).2.graph.reachable.size := by
  unfold addReachable
  split <;> simp

theorem addEdge_fst (e : CallEdge) : (g.addEdge e).1 = true ↔
    g.graph.edges.size < (g.addEdge e).2.graph.edges.size := by
  unfold addEdge
  split <;> simp

/-- What holds of a call graph after insertions: its lists have the first insertion of each method
and of each call, lookups read off the lists in their order, and a further insertion tells whether
it makes its list longer. -/
structure Consistent (g : IndexedCallGraph) (history : List Insertion) : Prop where
  entries : g.graph.entries = firsts id (history.filterMap Insertion.entry?)
  reachable : g.graph.reachable.toList = firsts id (history.filterMap Insertion.reachable?)
  edges : g.graph.edges.toList = firsts CallEdge.call (history.filterMap Insertion.edge?)
  nodup_entries : g.graph.entries.Nodup
  nodup_reachable : g.graph.reachable.toList.Nodup
  nodup_calls : (g.graph.edges.toList.map fun e => (e.site, e.callee)).Nodup
  isReachable_iff : ∀ m, g.isReachable m = true ↔ m ∈ g.graph.reachable
  hasEdge_iff : ∀ site m, g.hasEdge site m = true ↔
    ∃ e ∈ g.graph.edges, e.site = site ∧ e.callee = m
  callees_eq : ∀ site, g.callees site =
    (g.graph.edges.toList.filter fun e => e.site == site).map fun e => e.callee
  callers_eq : ∀ m, g.callers m =
    (g.graph.edges.toList.filter fun e => e.callee == m).map fun e => e.site
  edgesFrom_eq : ∀ site, g.edgesFrom site = g.graph.edges.toList.filter fun e => e.site == site
  addReachable_iff : ∀ m, (g.addReachable m).1 = true ↔
    g.graph.reachable.size < (g.addReachable m).2.graph.reachable.size
  addEdge_iff : ∀ e, (g.addEdge e).1 = true ↔
    g.graph.edges.size < (g.addEdge e).2.graph.edges.size

theorem consistent_after (history : List Insertion) : (after history).Consistent history := by
  obtain ⟨hstep, hgraph⟩ := inStep_after history
  obtain ⟨hentries, hreachable, hedges⟩ := CallGraph.holds_after history
  rw [← hgraph] at hentries hreachable hedges
  refine ⟨hentries, hreachable, hedges, ?_, ?_, ?_, fun m => ?_, fun site m => ?_,
    hstep.calleesAt, hstep.callersOf, fun _ => rfl, addReachable_fst, addEdge_fst⟩
  · rw [hentries, ← List.map_id (firsts id _)]
    exact nodup_firsts _
  · rw [hreachable, ← List.map_id (firsts id _)]
    exact nodup_firsts _
  · rw [hedges]
    exact nodup_firsts _
  · rw [hstep.reached, CallGraph.isReachable_iff]
  · rw [hstep.linked, CallGraph.hasEdge_iff]

end IndexedCallGraph
end ProgramAnalysis
