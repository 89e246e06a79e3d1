import ProgramAnalysis.Proofs.PointsTo.Graph

/-! What reaches a pointer: the objects that it holds and those that the work list has for it.
Interning a pointer changes nothing of this, sending adds the objects sent, and a flow adds its
edge and what the source holds already. -/
namespace ProgramAnalysis.PointsTo.State

variable {s : State} {P Q A B : Pointer} {o : ObjId} {n k : Nat} {objects : ObjSet}

def Awaits (s : State) (P : Pointer) (o : ObjId) : Prop :=
  ∃ n objects, (n, objects) ∈ s.work ∧ s.graph.pointer? n = some P ∧ o ∈ objects

def Reaches (s : State) (P : Pointer) (o : ObjId) : Prop := s.graph.Holds P o ∨ s.Awaits P o

/-- Node numbers are those of nodes. -/
structure WellFormed (s : State) : Prop where
  graph : s.graph.Valid
  work_lt : ∀ {n objects}, (n, objects) ∈ s.work → n < s.graph.nodes.size

/-! ### Interning -/

@[simp] theorem intern_heap : (s.intern P).2.heap = s.heap := rfl
@[simp] theorem intern_calls : (s.intern P).2.calls = s.calls := rfl
@[simp] theorem intern_work : (s.intern P).2.work = s.work := rfl
@[simp] theorem intern_pending : (s.intern P).2.pending = s.pending := rfl

theorem WellFormed.interned (h : s.WellFormed) (P : Pointer) :
    s.graph.Interned P (s.intern P).1 (s.intern P).2.graph :=
  h.graph.interned P

theorem WellFormed.intern (h : s.WellFormed) (P : Pointer) : (s.intern P).2.WellFormed where
  graph := (h.interned P).valid h.graph
  work_lt hm := Nat.lt_of_lt_of_le (h.work_lt hm) (h.interned P).size_le

theorem WellFormed.awaits_intern (h : s.WellFormed) :
    (s.intern P).2.Awaits A o ↔ s.Awaits A o := by
  have hi := h.interned P
  constructor
  · intro hr
    obtain ⟨n, objects, hm, hn, ho⟩ := hr
    exact ⟨n, objects, hm, (hi.pointer?_old (h.work_lt hm)).mp hn, ho⟩
  · intro hr
    obtain ⟨n, objects, hm, hn, ho⟩ := hr
    exact ⟨n, objects, hm, hi.pointer?_iff.mpr (.inl hn), ho⟩

/-! ### Sending -/

@[simp] theorem send_heap : (s.send P objects).heap = s.heap := rfl
@[simp] theorem send_calls : (s.send P objects).calls = s.calls := rfl
@[simp] theorem send_pending : (s.send P objects).pending = s.pending := rfl
@[simp] theorem send_graph : (s.send P objects).graph = (s.intern P).2.graph := rfl

theorem WellFormed.enqueue (h : s.WellFormed) (hn : n < s.graph.nodes.size) :
    (s.enqueue n objects).WellFormed where
  graph := h.graph
  work_lt hm := by
    rcases List.mem_append.mp hm with hm | hm
    · exact h.work_lt hm
    · cases List.mem_singleton.mp hm
      exact hn

theorem awaits_enqueue (hn : s.graph.pointer? n = some P) :
    (s.enqueue n objects).Awaits A o ↔ s.Awaits A o ∨ A = P ∧ o ∈ objects := by
  constructor
  · intro h
    obtain ⟨i, os, hm, hi, ho⟩ := h
    rcases List.mem_append.mp hm with hm | hm
    · exact .inl ⟨i, os, hm, hi, ho⟩
    · cases List.mem_singleton.mp hm
      change s.graph.pointer? n = some A at hi
      rw [hn] at hi
      exact .inr ⟨(Option.some.inj hi).symm, ho⟩
  · intro h
    rcases h with ⟨i, os, hm, hi, ho⟩ | ⟨rfl, ho⟩
    · exact ⟨i, os, List.mem_append_left _ hm, hi, ho⟩
    · exact ⟨n, objects, List.mem_append_right _ (List.mem_singleton.mpr rfl), hn, ho⟩

theorem WellFormed.send (h : s.WellFormed) (P : Pointer) (objects : ObjSet) :
    (s.send P objects).WellFormed :=
  (h.intern P).enqueue (PointerGraph.lt_of_pointer? (h.interned P).pointer)

theorem WellFormed.holds_send (h : s.WellFormed) :
    (s.send P objects).graph.Holds A o ↔ s.graph.Holds A o :=
  (h.interned P).holds

theorem WellFormed.flows_send (h : s.WellFormed) :
    (s.send P objects).graph.Flows A B ↔ s.graph.Flows A B :=
  (h.interned P).flows h.graph

theorem WellFormed.awaits_send (h : s.WellFormed) :
    (s.send P objects).Awaits A o ↔ s.Awaits A o ∨ A = P ∧ o ∈ objects := by
  rw [← h.awaits_intern (P := P)]
  exact awaits_enqueue (h.interned P).pointer

/-! ### Flows -/

theorem flow_eq (s : State) (P Q : Pointer) :
    s.flow P Q = ((s.intern P).2.intern Q).2.connect (s.intern P).1 ((s.intern P).2.intern Q).1 :=
  rfl

/-- A connection adds its edge, and if that is new and its source holds anything, one entry to the
work list. -/
theorem connect_eq (s : State) (n k : Nat) :
    ∃ sent, s.connect n k = { s with graph := s.graph.addEdge n k, work := s.work ++ sent } ∧
      ∀ e, e ∈ sent ↔ (n, k) ∉ s.graph.edges ∧ ¬ (s.graph.objects n).isEmpty = true ∧
        e = (k, s.graph.objects n) := by
  unfold connect
  by_cases hedge : s.graph.hasEdge n k = true
  · rw [if_pos hedge]
    refine ⟨[], by simp [PointerGraph.addEdge, hedge], fun e => ?_⟩
    simp [PointerGraph.hasEdge_iff.mp hedge]
  · have hnew := mt PointerGraph.hasEdge_iff.mpr hedge
    rw [if_neg hedge]
    simp only [PointerGraph.objects_addEdge]
    by_cases hempty : (s.graph.objects n).isEmpty = true
    · refine ⟨[], by simp [hempty], fun e => ?_⟩
      simp [hempty]
    · refine ⟨[(k, s.graph.objects n)], by simp [hempty, enqueue], fun e => ?_⟩
      simp [hempty, hnew]

theorem connect_graph : (s.connect n k).graph = s.graph.addEdge n k := by
  obtain ⟨_, h, _⟩ := s.connect_eq n k
  rw [h]

@[simp] theorem flow_heap : (s.flow P Q).heap = s.heap := by
  obtain ⟨_, h, _⟩ := ((s.intern P).2.intern Q).2.connect_eq (s.intern P).1
    ((s.intern P).2.intern Q).1
  rw [flow_eq, h]
  rfl

@[simp] theorem flow_calls : (s.flow P Q).calls = s.calls := by
  obtain ⟨_, h, _⟩ := ((s.intern P).2.intern Q).2.connect_eq (s.intern P).1
    ((s.intern P).2.intern Q).1
  rw [flow_eq, h]
  rfl

@[simp] theorem flow_pending : (s.flow P Q).pending = s.pending := by
  obtain ⟨_, h, _⟩ := ((s.intern P).2.intern Q).2.connect_eq (s.intern P).1
    ((s.intern P).2.intern Q).1
  rw [flow_eq, h]
  rfl

theorem WellFormed.connect (h : s.WellFormed) (hn : n < s.graph.nodes.size)
    (hk : k < s.graph.nodes.size) : (s.connect n k).WellFormed := by
  obtain ⟨sent, heq, hsent⟩ := s.connect_eq n k
  rw [heq]
  refine ⟨h.graph.addEdge hn hk, fun {i os} hm => ?_⟩
  show i < (s.graph.addEdge n k).nodes.size
  rw [PointerGraph.nodes_addEdge]
  rcases List.mem_append.mp hm with hm | hm
  · exact h.work_lt hm
  · obtain ⟨_, _, hpair⟩ := (hsent _).mp hm
    cases hpair
    exact hk

theorem awaits_connect (h : s.graph.Valid) (hn : s.graph.pointer? n = some P)
    (hk : s.graph.pointer? k = some Q) : (s.connect n k).Awaits A o ↔
      s.Awaits A o ∨ A = Q ∧ s.graph.Holds P o ∧ ¬ s.graph.Flows P Q := by
  obtain ⟨sent, heq, hsent⟩ := s.connect_eq n k
  rw [h.flows_iff hn hk, heq]
  unfold Awaits
  simp only [PointerGraph.pointer?_addEdge]
  constructor
  · intro hr
    obtain ⟨i, os, hm, hi, ho⟩ := hr
    rcases List.mem_append.mp hm with hm | hm
    · exact .inl ⟨i, os, hm, hi, ho⟩
    · obtain ⟨hnew, _, hpair⟩ := (hsent _).mp hm
      cases hpair
      rw [hk] at hi
      exact .inr ⟨(Option.some.inj hi).symm, ⟨n, hn, ho⟩, hnew⟩
  · intro hr
    rcases hr with ⟨i, os, hm, hi, ho⟩ | ⟨rfl, ⟨i, hi, ho⟩, hnew⟩
    · exact ⟨i, os, List.mem_append_left _ hm, hi, ho⟩
    · rw [h.distinct hi hn] at ho
      have hne : ¬ (s.graph.objects n).isEmpty = true := by
        intro he
        have hnil := List.isEmpty_iff.mp he
        rw [← HandleSet.mem_elems, hnil] at ho
        cases ho
      exact ⟨k, _, List.mem_append_right _ ((hsent _).mpr ⟨hnew, hne, rfl⟩), hk, ho⟩

/-- The nodes that a flow connects. -/
theorem WellFormed.flow_nodes (h : s.WellFormed) (P Q : Pointer) :
    ((s.intern P).2.intern Q).2.graph.pointer? (s.intern P).1 = some P ∧
      ((s.intern P).2.intern Q).2.graph.pointer? ((s.intern P).2.intern Q).1 = some Q := by
  have hQ := (h.intern P).interned Q
  exact ⟨hQ.pointer?_iff.mpr (.inl (h.interned P).pointer), hQ.pointer⟩

theorem WellFormed.flow (h : s.WellFormed) (P Q : Pointer) : (s.flow P Q).WellFormed := by
  obtain ⟨hn, hk⟩ := h.flow_nodes P Q
  rw [flow_eq]
  exact ((h.intern P).intern Q).connect (PointerGraph.lt_of_pointer? hn)
    (PointerGraph.lt_of_pointer? hk)

theorem WellFormed.holds_flow (h : s.WellFormed) :
    (s.flow P Q).graph.Holds A o ↔ s.graph.Holds A o := by
  rw [flow_eq, connect_graph, PointerGraph.holds_addEdge, ((h.intern P).interned Q).holds,
    (h.interned P).holds]

theorem WellFormed.flows_flow (h : s.WellFormed) :
    (s.flow P Q).graph.Flows A B ↔ s.graph.Flows A B ∨ A = P ∧ B = Q := by
  obtain ⟨hn, hk⟩ := h.flow_nodes P Q
  rw [flow_eq, connect_graph, PointerGraph.flows_addEdge hn hk,
    ((h.intern P).interned Q).flows (h.intern P).graph, (h.interned P).flows h.graph]

theorem WellFormed.awaits_flow (h : s.WellFormed) : (s.flow P Q).Awaits A o ↔
    s.Awaits A o ∨ A = Q ∧ s.graph.Holds P o ∧ ¬ s.graph.Flows P Q := by
  obtain ⟨hn, hk⟩ := h.flow_nodes P Q
  rw [flow_eq, awaits_connect ((h.intern P).intern Q).graph hn hk, (h.intern P).awaits_intern,
    h.awaits_intern, ((h.intern P).interned Q).holds, (h.interned P).holds,
    ((h.intern P).interned Q).flows (h.intern P).graph, (h.interned P).flows h.graph]

theorem WellFormed.node_flow (h : s.WellFormed) (hA : s.graph.pointer? n = some A) :
    (s.flow P Q).graph.pointer? n = some A := by
  rw [flow_eq, connect_graph, PointerGraph.pointer?_addEdge]
  exact ((h.intern P).interned Q).pointer?_iff.mpr
    (.inl ((h.interned P).pointer?_iff.mpr (.inl hA)))

/-- The pointers that have a node after a flow. -/
theorem WellFormed.pointer?_flow (h : s.WellFormed) :
    (s.flow P Q).graph.pointer? n = some A → s.graph.pointer? n = some A ∨ A = P ∨ A = Q := by
  intro hA
  rw [flow_eq, connect_graph, PointerGraph.pointer?_addEdge] at hA
  rcases ((h.intern P).interned Q).pointer?_iff.mp hA with hA | ⟨_, rfl⟩
  · rcases (h.interned P).pointer?_iff.mp hA with hA | ⟨_, rfl⟩
    · exact .inl hA
    · exact .inr (.inl rfl)
  · exact .inr (.inr rfl)

end ProgramAnalysis.PointsTo.State
