import ProgramAnalysis.Proofs.Except
import ProgramAnalysis.Proofs.PointsTo.Allocation
import ProgramAnalysis.Proofs.PointsTo.Graph

/-! Nodes and edges are numbered by first request. After any requests the pointers of a flow graph are
the first requests of each, the map tells exactly their places, there is a set for each, and the edges
are the first requests of each pair. -/
namespace ProgramAnalysis

/-- What is asked of a pointer flow graph: a node, an edge, or objects at a node. -/
inductive GraphRequest where
  | node (P : Pointer)
  | edge (source target : Nat)
  | objects (n : Nat) (delta : ObjSet)

namespace GraphRequest

def node? : GraphRequest → Option Pointer
  | .node P => some P
  | _ => none

def edge? : GraphRequest → Option (Nat × Nat)
  | .edge source target => some (source, target)
  | _ => none

variable {history : List GraphRequest} {P : Pointer} {source target : Nat}

theorem mem_nodes : P ∈ history.filterMap node? ↔ .node P ∈ history := by
  rw [List.mem_filterMap]
  refine ⟨fun ⟨r, hr, hP⟩ => ?_, fun h => ⟨_, h, rfl⟩⟩
  cases r <;> cases hP
  exact hr

theorem mem_edges : (source, target) ∈ history.filterMap edge? ↔ .edge source target ∈ history := by
  rw [List.mem_filterMap]
  refine ⟨fun ⟨r, hr, he⟩ => ?_, fun h => ⟨_, h, rfl⟩⟩
  cases r <;> cases he
  exact hr

end GraphRequest

open GraphRequest (node? edge?)

/-- Each pointer once, in the order of first request. -/
def requestedNodes (history : List GraphRequest) : List Pointer :=
  firsts id (history.filterMap node?)

/-- Each edge once, in the order of first request. -/
def requestedEdges (history : List GraphRequest) : List (Nat × Nat) :=
  firsts id (history.filterMap edge?)

theorem mem_requestedNodes {history : List GraphRequest} {P : Pointer} :
    P ∈ requestedNodes history ↔ .node P ∈ history := by
  have hkeys : P ∈ (requestedNodes history).map id ↔ _ := mem_map_firsts _
  rwa [List.map_id, List.map_id, GraphRequest.mem_nodes] at hkeys

theorem mem_requestedEdges {history : List GraphRequest} {source target : Nat} :
    (source, target) ∈ requestedEdges history ↔ .edge source target ∈ history := by
  have hkeys : (source, target) ∈ (requestedEdges history).map id ↔ _ := mem_map_firsts _
  rwa [List.map_id, List.map_id, GraphRequest.mem_edges] at hkeys

theorem requestedNodes_concat (history : List GraphRequest) (r : GraphRequest) :
    requestedNodes (history ++ [r]) = match node? r with
      | none => requestedNodes history
      | some P => if P ∈ requestedNodes history then requestedNodes history
        else requestedNodes history ++ [P] := by
  unfold requestedNodes
  rw [firsts_filterMap_concat]
  cases node? r <;> simp

theorem requestedEdges_concat (history : List GraphRequest) (r : GraphRequest) :
    requestedEdges (history ++ [r]) = match edge? r with
      | none => requestedEdges history
      | some e => if e ∈ requestedEdges history then requestedEdges history
        else requestedEdges history ++ [e] := by
  unfold requestedEdges
  rw [firsts_filterMap_concat]
  cases edge? r <;> simp

/-- Histories in which edges and objects are for nodes that there are by then. -/
inductive OnNodes : List GraphRequest → Prop where
  | nil : OnNodes []
  | node {history : List GraphRequest} (h : OnNodes history) (P : Pointer) :
    OnNodes (history ++ [.node P])
  | edge {history : List GraphRequest} {source target : Nat} (h : OnNodes history)
    (hs : source < (requestedNodes history).length)
    (ht : target < (requestedNodes history).length) : OnNodes (history ++ [.edge source target])
  | objects {history : List GraphRequest} {n : Nat} (h : OnNodes history)
    (hn : n < (requestedNodes history).length) (delta : ObjSet) :
    OnNodes (history ++ [.objects n delta])

/-! ### Searches -/

namespace PointerGraph

variable {g : PointerGraph} {history : List GraphRequest} {P : Pointer} {n source target : Nat}

def step (g : PointerGraph) : GraphRequest → Except AnalysisError PointerGraph
  | .node P => .ok (g.intern P).2
  | .edge source target => (g.linkNodes source target).map (·.2)
  | .objects n delta => .ok (g.addObjects n delta)

def after (history : List GraphRequest) : Except AnalysisError PointerGraph :=
  history.foldlM step empty

def pointers (g : PointerGraph) : Array Pointer := g.nodes.map (·.pointer)

theorem getElem?_pointers : g.pointers[n]? = g.pointer? n := Array.getElem?_map

theorem size_pointers : g.pointers.size = g.nodes.size := Array.size_map

theorem lookup?_eq_findIdx? : g.lookup? P = g.pointers.findIdx? (· == P) := by
  rw [pointers, Array.findIdx?_map]
  rfl

theorem Valid.lookup?_iff (h : g.Valid) : g.lookup? P = some n ↔ g.pointer? n = some P := by
  refine ⟨pointer?_of_lookup?, fun hn => ?_⟩
  cases hl : g.lookup? P with
  | none => exact absurd hn (pointer?_ne_of_lookup? hl n)
  | some k => rw [h.distinct (pointer?_of_lookup? hl) hn]

theorem toList_pointers_intern (g : PointerGraph) (P : Pointer) :
    (g.intern P).2.pointers.toList =
      if P ∈ g.pointers.toList then g.pointers.toList else g.pointers.toList ++ [P] := by
  unfold intern
  simp only [Array.mem_toList_iff]
  cases hl : g.lookup? P with
  | some n =>
    rw [if_pos (Array.mem_of_getElem? (getElem?_pointers.trans (pointer?_of_lookup? hl)))]
  | none =>
    have hmem : P ∉ g.pointers := by
      intro hP
      obtain ⟨n, hn⟩ := Array.mem_iff_getElem?.mp hP
      exact pointer?_ne_of_lookup? hl n (getElem?_pointers.symm.trans hn)
    rw [if_neg hmem, pointers, Array.map_push, Array.toList_push]
    rfl

theorem pointers_addObjects {delta : ObjSet} : (g.addObjects n delta).pointers = g.pointers := by
  refine Array.ext_getElem? fun i => ?_
  rw [getElem?_pointers, getElem?_pointers, pointer?_addObjects]

theorem toList_edges_addEdge : (g.addEdge source target).edges.toList =
    if (source, target) ∈ g.edges.toList then g.edges.toList
    else g.edges.toList ++ [(source, target)] := by
  unfold addEdge
  simp only [hasEdge_iff, Array.mem_toList_iff]
  split
  · rfl
  · exact Array.toList_push

theorem linkNodes_ok (hs : source < g.nodes.size) (ht : target < g.nodes.size) :
    g.linkNodes source target = .ok (!g.hasEdge source target, g.addEdge source target) := by
  unfold linkNodes
  split
  · next h => simp [addEdge, h]
  · next h => simp [hasNode, hs, ht, h]

theorem step_edge (hs : source < g.nodes.size) (ht : target < g.nodes.size) :
    g.step (.edge source target) = .ok (g.addEdge source target) := by
  rw [step, linkNodes_ok hs ht]
  rfl

/-- What a graph holds after requests: the first of each for a node or an edge, and at each node the
objects that were added there. -/
structure Records (g : PointerGraph) (history : List GraphRequest) : Prop where
  valid : g.Valid
  pointers : g.pointers.toList = requestedNodes history
  edges : g.edges.toList = requestedEdges history
  mem_objects : ∀ n o, o ∈ g.objects n ↔ ∃ delta, .objects n delta ∈ history ∧ o ∈ delta

theorem records_empty : empty.Records [] where
  valid := valid_empty
  pointers := congrArg Array.toList Array.map_empty
  edges := rfl
  mem_objects n o := by simp [objects, empty, HandleSet.not_mem_empty]

namespace Records

theorem size_eq (h : g.Records history) : g.nodes.size = (requestedNodes history).length := by
  rw [← size_pointers, ← Array.length_toList, h.pointers]

theorem node (h : g.Records history) (P : Pointer) :
    (g.intern P).2.Records (history ++ [.node P]) := by
  have hi := h.valid.interned P
  refine ⟨hi.valid h.valid, ?_, ?_, fun n o => ?_⟩
  · rw [toList_pointers_intern, h.pointers]
    exact (requestedNodes_concat history (.node P)).symm
  · rw [hi.edges, h.edges]
    exact (requestedEdges_concat history (.node P)).symm
  · simp [hi.objects, h.mem_objects]

theorem edge (h : g.Records history) (hs : source < g.nodes.size) (ht : target < g.nodes.size) :
    (g.addEdge source target).Records (history ++ [.edge source target]) := by
  refine ⟨h.valid.addEdge hs ht, ?_, ?_, fun n o => ?_⟩
  · rw [PointerGraph.pointers, nodes_addEdge]
    exact h.pointers.trans (requestedNodes_concat history (.edge source target)).symm
  · rw [toList_edges_addEdge, h.edges]
    exact (requestedEdges_concat history (.edge source target)).symm
  · simp [h.mem_objects]

theorem objects (h : g.Records history) (hn : n < g.nodes.size) (delta : ObjSet) :
    (g.addObjects n delta).Records (history ++ [.objects n delta]) := by
  refine ⟨h.valid.addObjects, ?_, ?_, fun k o => ?_⟩
  · rw [pointers_addObjects, h.pointers]
    exact (requestedNodes_concat history (.objects n delta)).symm
  · exact h.edges.trans (requestedEdges_concat history (.objects n delta)).symm
  · rw [mem_objects_addObjects hn, h.mem_objects]
    simp only [List.mem_append, List.mem_singleton, GraphRequest.objects.injEq, or_and_right,
      exists_or]
    refine or_congr_right ⟨fun ⟨hk, ho⟩ => ⟨delta, ⟨hk, rfl⟩, ho⟩, ?_⟩
    rintro ⟨_, ⟨hk, rfl⟩, ho⟩
    exact ⟨hk, ho⟩

end Records
end PointerGraph

/-! ### The map -/

namespace IndexedPointerGraph

variable {g : IndexedPointerGraph} {base : PointerGraph} {history : List GraphRequest}
  {P : Pointer} {n source target : Nat}

/-- The arrays are the columns of the nodes, and the map tells of each pointer what a search of the
nodes does. -/
structure InStep (g : IndexedPointerGraph) (base : PointerGraph) : Prop where
  pointers : g.pointers = base.pointers
  sets : g.sets = base.nodes.map (·.objects)
  edges : g.edges = base.edges
  lookup? : ∀ P, g.lookup? P = base.lookup? P

theorem inStep_empty : empty.InStep .empty :=
  ⟨Array.map_empty.symm, Array.map_empty.symm, rfl, fun _ => Array.findIdx?_empty.symm⟩

theorem InStep.size (h : g.InStep base) : g.pointers.size = base.nodes.size := by
  rw [h.pointers, PointerGraph.size_pointers]

theorem InStep.intern (h : g.InStep base) (P : Pointer) :
    (g.intern P).1 = (base.intern P).1 ∧ (g.intern P).2.InStep (base.intern P).2 := by
  unfold IndexedPointerGraph.intern PointerGraph.intern
  rw [h.lookup?]
  cases hl : base.lookup? P with
  | some n => exact ⟨rfl, h⟩
  | none =>
    refine ⟨h.size, ?_, ?_, h.edges, fun Q => ?_⟩
    · rw [PointerGraph.pointers, Array.map_push, h.pointers]
      rfl
    · rw [Array.map_push, h.sets]
    · show (g.nodeOf.insert P g.pointers.size).get? Q = (base.nodes.push _).findIdx? _
      rw [Table.get?_insert, Array.findIdx?_push]
      split
      · next heq =>
        subst heq
        have hnone : base.nodes.findIdx? (fun n => n.pointer == P) = none := hl
        simp [hnone, h.size]
      · next hne =>
        have hold : g.nodeOf.get? Q = base.nodes.findIdx? (fun n => n.pointer == Q) := h.lookup? Q
        simp [hne, hold]

theorem InStep.addObjects (h : g.InStep base) {delta : ObjSet} :
    (g.addObjects n delta).InStep (base.addObjects n delta) where
  pointers := h.pointers.trans PointerGraph.pointers_addObjects.symm
  sets := by
    refine Array.ext_getElem? fun i => ?_
    simp only [IndexedPointerGraph.addObjects, PointerGraph.addObjects, h.sets, Array.getElem?_map,
      Array.getElem?_modify]
    split <;> simp [Function.comp_def]
  edges := h.edges
  lookup? P := by
    rw [PointerGraph.lookup?_eq_findIdx?, PointerGraph.pointers_addObjects,
      ← PointerGraph.lookup?_eq_findIdx?]
    exact h.lookup? P

theorem InStep.hasEdge (h : g.InStep base) :
    g.hasEdge source target = base.hasEdge source target := by
  rw [IndexedPointerGraph.hasEdge, PointerGraph.hasEdge, h.edges]

theorem InStep.addEdge (h : g.InStep base) :
    (g.addEdge source target).InStep (base.addEdge source target) := by
  unfold IndexedPointerGraph.addEdge PointerGraph.addEdge
  rw [h.hasEdge]
  split
  · exact h
  · exact ⟨h.pointers, h.sets, congrArg (·.push (source, target)) h.edges, h.lookup?⟩

theorem sets_addEdge : (g.addEdge source target).sets = g.sets := by
  unfold addEdge
  split <;> rfl

theorem linkNodes_ok (hs : source < g.pointers.size) (ht : target < g.pointers.size) :
    g.linkNodes source target = .ok (!g.hasEdge source target, g.addEdge source target) := by
  unfold linkNodes
  split
  · next h => simp [addEdge, h]
  · next h => simp [hasNode, hs, ht, h]

theorem objects?_intern (hn : n < g.sets.size) : (g.intern P).2.objects? n = g.objects? n := by
  unfold intern
  split
  · rfl
  · exact Array.getElem?_push_lt hn |>.trans (Array.getElem?_eq_getElem hn).symm

def step (g : IndexedPointerGraph) : GraphRequest → Except AnalysisError IndexedPointerGraph
  | .node P => .ok (g.intern P).2
  | .edge source target => (g.linkNodes source target).map (·.2)
  | .objects n delta => .ok (g.addObjects n delta)

def after (history : List GraphRequest) : Except AnalysisError IndexedPointerGraph :=
  history.foldlM step empty

theorem step_edge (hs : source < g.pointers.size) (ht : target < g.pointers.size) :
    g.step (.edge source target) = .ok (g.addEdge source target) := by
  rw [step, linkNodes_ok hs ht]
  rfl

/-- Requests for nodes that there are succeed, and the map stays in step. -/
theorem inStep_after (h : OnNodes history) : ∃ g base, after history = .ok g ∧
    PointerGraph.after history = .ok base ∧ g.InStep base ∧ base.Records history := by
  induction h with
  | nil => exact ⟨empty, .empty, rfl, rfl, inStep_empty, PointerGraph.records_empty⟩
  | node _ P ih =>
    obtain ⟨g, base, hg, hbase, hstep, hrecords⟩ := ih
    exact ⟨_, _, foldlM_concat hg rfl, foldlM_concat hbase rfl, (hstep.intern P).2,
      hrecords.node P⟩
  | edge _ hs ht ih =>
    obtain ⟨g, base, hg, hbase, hstep, hrecords⟩ := ih
    rw [← hrecords.size_eq] at hs ht
    exact ⟨_, _, foldlM_concat hg (step_edge (hstep.size ▸ hs) (hstep.size ▸ ht)),
      foldlM_concat hbase (PointerGraph.step_edge hs ht), hstep.addEdge,
      hrecords.edge hs ht⟩
  | objects _ hn delta ih =>
    obtain ⟨g, base, hg, hbase, hstep, hrecords⟩ := ih
    rw [← hrecords.size_eq] at hn
    exact ⟨_, _, foldlM_concat hg rfl, foldlM_concat hbase rfl, hstep.addObjects,
      hrecords.objects hn delta⟩

/-- What holds after requests: nodes and edges are the first requests of each, lookup and node numbers
are inverse to each other, each node has a set with what was added to it, and neither a further node
nor a further edge changes the sets that there are. -/
structure Consistent (g : IndexedPointerGraph) (history : List GraphRequest) : Prop where
  pointers : g.pointers.toList = requestedNodes history
  edges : g.edges.toList = requestedEdges history
  size_pointers : g.pointers.size = (history.filterMap node?).toFinset.card
  size_edges : g.edges.size = (history.filterMap edge?).toFinset.card
  size_sets : g.sets.size = g.pointers.size
  lookup?_iff : ∀ P n, g.lookup? P = some n ↔ g.pointer? n = some P
  requested_iff : ∀ P, (∃ n, g.lookup? P = some n) ↔ .node P ∈ history
  mem_objects : ∀ n s o, g.objects? n = some s →
    (o ∈ s ↔ ∃ delta, .objects n delta ∈ history ∧ o ∈ delta)
  intern : ∀ P, (g.intern P).2.lookup? P = some (g.intern P).1 ∧
    ∀ n < g.pointers.size, (g.intern P).2.objects? n = g.objects? n
  linkNodes : ∀ source < g.pointers.size, ∀ target < g.pointers.size,
    ∃ fresh g', g.linkNodes source target = .ok (fresh, g') ∧
      (fresh = true ↔ .edge source target ∉ history) ∧ g'.sets = g.sets

theorem InStep.size_sets (h : g.InStep base) : g.sets.size = g.pointers.size := by
  rw [h.sets, Array.size_map, h.size]

theorem InStep.pointer?_eq (h : g.InStep base) : g.pointer? n = base.pointer? n := by
  rw [pointer?, h.pointers, PointerGraph.getElem?_pointers]

theorem InStep.consistent (h : g.InStep base) (hrecords : base.Records history) :
    g.Consistent history where
  pointers := h.pointers ▸ hrecords.pointers
  edges := h.edges ▸ hrecords.edges
  size_pointers := by
    rw [h.size, hrecords.size_eq, requestedNodes, length_firsts, List.map_id]
  size_edges := by
    rw [h.edges, ← Array.length_toList, hrecords.edges, requestedEdges, length_firsts, List.map_id]
  size_sets := h.size_sets
  lookup?_iff P n := by rw [h.lookup?, h.pointer?_eq, hrecords.valid.lookup?_iff]
  requested_iff P := by
    rw [← mem_requestedNodes, ← hrecords.pointers, ← h.pointers, Array.mem_toList_iff,
      Array.mem_iff_getElem?]
    exact exists_congr fun n => by
      rw [h.lookup?, hrecords.valid.lookup?_iff, ← h.pointer?_eq, pointer?]
  mem_objects n s o hs := by
    rw [objects?, h.sets, Array.getElem?_map] at hs
    rw [← hrecords.mem_objects, PointerGraph.objects, hs, Option.getD_some]
  intern P := by
    obtain ⟨hanswer, hstep⟩ := h.intern P
    have hi := hrecords.valid.interned P
    refine ⟨?_, fun n hn => objects?_intern (h.size_sets.symm ▸ hn)⟩
    rw [hstep.lookup?, hanswer, (hi.valid hrecords.valid).lookup?_iff]
    exact hi.pointer
  linkNodes source hs target ht := by
    refine ⟨_, _, linkNodes_ok hs ht, ?_, sets_addEdge⟩
    rw [Bool.not_eq_true', ← Bool.not_eq_true, not_iff_not, h.hasEdge, PointerGraph.hasEdge_iff,
      ← Array.mem_toList_iff, hrecords.edges, mem_requestedEdges]

end IndexedPointerGraph

/-- Interning never takes one key for another: each map stays in step with the arrays that it points
into, whatever is asked of the heap and of the graph. -/
theorem interning_exact :
    (∀ (model : HeapModel) (calls : List Allocation),
      IndexedHeap.Consistent (IndexedHeap.after model calls) calls) ∧
    ∀ history, OnNodes history → ∃ g base, IndexedPointerGraph.after history = .ok g ∧
      PointerGraph.after history = .ok base ∧ g.InStep base ∧ g.Consistent history := by
  refine ⟨fun _ => IndexedHeap.consistent_after, fun history h => ?_⟩
  obtain ⟨g, base, hg, hbase, hstep, hrecords⟩ := IndexedPointerGraph.inStep_after h
  exact ⟨g, base, hg, hbase, hstep, hstep.consistent hrecords⟩

/-- A node and an edge are asked for twice. -/
def repeatedRequests : List GraphRequest :=
  [.node (.var ⟨0⟩), .node (.staticField ⟨1⟩), .edge 0 1,
    .objects 0 (HandleSet.empty.insert ⟨2⟩), .edge 0 1, .node (.var ⟨0⟩)]

theorem onNodes_repeatedRequests : OnNodes repeatedRequests := by
  have hnodes := (OnNodes.nil.node (.var ⟨0⟩)).node (.staticField ⟨1⟩)
  have hedge : OnNodes (_ ++ [.edge 0 1]) := hnodes.edge (by decide) (by decide)
  have hobjects : OnNodes (_ ++ [.objects 0 (HandleSet.empty.insert ⟨2⟩)]) :=
    hedge.objects (by decide) _
  have hagain : OnNodes (_ ++ [.edge 0 1]) := hobjects.edge (by decide) (by decide)
  exact hagain.node (.var ⟨0⟩)

theorem interning_exact_repeated : OnNodes repeatedRequests ∧ ∃ g,
    IndexedPointerGraph.after repeatedRequests = .ok g ∧ g.pointers.size = 2 ∧ g.edges.size = 1 ∧
      g.lookup? (.staticField ⟨1⟩) = some 1 := by
  obtain ⟨g, _, hg, -, -, hconsistent⟩ :=
    interning_exact.2 repeatedRequests onNodes_repeatedRequests
  refine ⟨onNodes_repeatedRequests, g, hg, ?_, ?_, ?_⟩
  · rw [hconsistent.size_pointers]
    decide
  · rw [hconsistent.size_edges]
    decide
  · have hplace : g.pointers.toList[1]? = some (.staticField ⟨1⟩) := by
      rw [hconsistent.pointers]
      decide
    rw [hconsistent.lookup?_iff, IndexedPointerGraph.pointer?, ← Array.getElem?_toList, hplace]

end ProgramAnalysis
