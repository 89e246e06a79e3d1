import ProgramAnalysis.PointsTo.Solver

/-! The pointer flow graph by pointers instead of node numbers: what a pointer holds, which
pointers flow into which, and what is on its way. Each operation of the solver on the graph adds
one pair to one of these relations. -/
namespace ProgramAnalysis

namespace PointerGraph

variable {g : PointerGraph} {P Q A B : Pointer} {n k : Nat} {o : ObjId}

def Holds (g : PointerGraph) (P : Pointer) (o : ObjId) : Prop :=
  ∃ n, g.pointer? n = some P ∧ o ∈ g.objects n

def Flows (g : PointerGraph) (P Q : Pointer) : Prop :=
  ∃ n k, g.pointer? n = some P ∧ g.pointer? k = some Q ∧ (n, k) ∈ g.edges

structure Valid (g : PointerGraph) : Prop where
  distinct : ∀ {n k P}, g.pointer? n = some P → g.pointer? k = some P → n = k
  edge_lt : ∀ {n k}, (n, k) ∈ g.edges → n < g.nodes.size ∧ k < g.nodes.size
  edges_nodup : g.edges.toList.Nodup

theorem pointer?_eq_some_iff :
    g.pointer? n = some P ↔ ∃ h : n < g.nodes.size, g.nodes[n].pointer = P := by
  simp only [pointer?, Option.map_eq_some_iff, Array.getElem?_eq_some_iff]
  exact ⟨fun ⟨_, ⟨h, rfl⟩, hp⟩ => ⟨h, hp⟩, fun ⟨h, hp⟩ => ⟨_, ⟨h, rfl⟩, hp⟩⟩

theorem lt_of_pointer? (h : g.pointer? n = some P) : n < g.nodes.size :=
  (pointer?_eq_some_iff.mp h).1

theorem exists_pointer? (h : n < g.nodes.size) : ∃ P, g.pointer? n = some P :=
  ⟨_, pointer?_eq_some_iff.mpr ⟨h, rfl⟩⟩

theorem pointer?_of_lookup? (h : g.lookup? P = some n) : g.pointer? n = some P := by
  obtain ⟨hn, hp, _⟩ := Array.findIdx?_eq_some_iff_getElem.mp h
  exact pointer?_eq_some_iff.mpr ⟨hn, by simpa using hp⟩

theorem pointer?_ne_of_lookup? (h : g.lookup? P = none) (n : Nat) : g.pointer? n ≠ some P := by
  intro hn
  obtain ⟨hlt, hp⟩ := pointer?_eq_some_iff.mp hn
  have hne := Array.findIdx?_eq_none_iff.mp h _ (Array.getElem_mem hlt)
  simp [hp] at hne

theorem Valid.mem_pointsTo (h : g.Valid) : o ∈ g.pointsTo P ↔ g.Holds P o := by
  unfold pointsTo Holds
  cases hl : g.lookup? P with
  | none =>
    refine ⟨fun ho => absurd ho (HandleSet.not_mem_empty o), fun ⟨n, hn, _⟩ => ?_⟩
    exact absurd hn (pointer?_ne_of_lookup? hl n)
  | some k =>
    have hk := pointer?_of_lookup? hl
    refine ⟨fun ho => ⟨k, hk, ho⟩, fun ⟨n, hn, ho⟩ => ?_⟩
    rw [h.distinct hk hn]
    exact ho

theorem objects_of_le (h : g.nodes.size ≤ n) : g.objects n = .empty := by
  unfold objects
  rw [Array.getElem?_eq_none h]
  rfl

theorem valid_empty : PointerGraph.empty.Valid where
  distinct h := by simp [pointer?, empty] at h
  edge_lt h := by simp [empty] at h
  edges_nodup := List.nodup_nil

/-! ### New nodes -/

/-- `g'` is `g` with the node `n` for `P`, which holds nothing if it is new. -/
structure Interned (g : PointerGraph) (P : Pointer) (n : Nat) (g' : PointerGraph) : Prop where
  pointer : g'.pointer? n = some P
  pointer?_iff : ∀ {k Q}, g'.pointer? k = some Q ↔ g.pointer? k = some Q ∨ k = n ∧ Q = P
  unique : ∀ {k}, g.pointer? k = some P → k = n
  objects : ∀ k, g'.objects k = g.objects k
  edges : g'.edges = g.edges
  size_le : g.nodes.size ≤ g'.nodes.size

theorem Valid.interned (h : g.Valid) (P : Pointer) :
    g.Interned P (g.intern P).1 (g.intern P).2 := by
  unfold intern
  cases hl : g.lookup? P with
  | some n =>
    have hn := pointer?_of_lookup? hl
    refine ⟨hn, ⟨.inl, ?_⟩, fun hk => h.distinct hk hn, fun _ => rfl, rfl, Nat.le_refl _⟩
    intro hr
    rcases hr with h | ⟨rfl, rfl⟩
    · exact h
    · exact hn
  | none =>
    have hne := pointer?_ne_of_lookup? hl
    refine ⟨by simp [pointer?], fun {k Q} => ?_, fun hk => absurd hk (hne _), fun k => ?_, rfl,
      by simp⟩
    · simp only [pointer?, Array.getElem?_push]
      by_cases hk : k = g.nodes.size
      · subst hk
        simp [eq_comm]
      · simp [hk]
    · simp only [PointerGraph.objects, Array.getElem?_push]
      by_cases hk : k = g.nodes.size
      · subst hk
        simp
      · simp [hk]

namespace Interned

variable {g' : PointerGraph}

theorem valid (hi : g.Interned P n g') (h : g.Valid) : g'.Valid where
  distinct hk hj := by
    rcases hi.pointer?_iff.mp hk with hk | ⟨rfl, rfl⟩
    · rcases hi.pointer?_iff.mp hj with hj | ⟨rfl, rfl⟩
      · exact h.distinct hk hj
      · exact hi.unique hk
    · rcases hi.pointer?_iff.mp hj with hj | ⟨rfl, _⟩
      · exact (hi.unique hj).symm
      · rfl
  edge_lt hm := by
    rw [hi.edges] at hm
    have hlt := h.edge_lt hm
    have hle := hi.size_le
    omega
  edges_nodup := hi.edges ▸ h.edges_nodup

theorem pointer?_old (hi : g.Interned P n g') (hk : k < g.nodes.size) :
    g'.pointer? k = some A ↔ g.pointer? k = some A := by
  refine ⟨fun h => ?_, fun h => hi.pointer?_iff.mpr (.inl h)⟩
  obtain ⟨B, hB⟩ := exists_pointer? hk
  have hB' := hi.pointer?_iff.mpr (.inl hB)
  rw [h] at hB'
  cases hB'
  exact hB

theorem holds (hi : g.Interned P n g') : g'.Holds A o ↔ g.Holds A o := by
  constructor
  · intro h
    obtain ⟨k, hk, ho⟩ := h
    rw [hi.objects] at ho
    have hlt : k < g.nodes.size := by
      refine Nat.lt_of_not_le fun hle => ?_
      rw [objects_of_le hle] at ho
      exact HandleSet.not_mem_empty o ho
    exact ⟨k, (hi.pointer?_old hlt).mp hk, ho⟩
  · intro h
    obtain ⟨k, hk, ho⟩ := h
    exact ⟨k, hi.pointer?_iff.mpr (.inl hk), (hi.objects k).symm ▸ ho⟩

theorem flows (hi : g.Interned P n g') (h : g.Valid) : g'.Flows A B ↔ g.Flows A B := by
  constructor
  · intro hr
    obtain ⟨i, j, hA, hB, he⟩ := hr
    rw [hi.edges] at he
    obtain ⟨hlt, hlt'⟩ := h.edge_lt he
    exact ⟨i, j, (hi.pointer?_old hlt).mp hA, (hi.pointer?_old hlt').mp hB, he⟩
  · intro hr
    obtain ⟨i, j, hA, hB, he⟩ := hr
    exact ⟨i, j, hi.pointer?_iff.mpr (.inl hA), hi.pointer?_iff.mpr (.inl hB), hi.edges ▸ he⟩

end Interned

/-! ### New edges -/

theorem hasEdge_iff : g.hasEdge n k = true ↔ (n, k) ∈ g.edges := by
  simp [hasEdge]

theorem Valid.flows_iff (h : g.Valid) (hn : g.pointer? n = some P) (hk : g.pointer? k = some Q) :
    g.Flows P Q ↔ (n, k) ∈ g.edges := by
  refine ⟨fun ⟨i, j, hi, hj, he⟩ => ?_, fun he => ⟨n, k, hn, hk, he⟩⟩
  rw [h.distinct hn hi, h.distinct hk hj]
  exact he

theorem mem_addEdge {e : Nat × Nat} :
    e ∈ (g.addEdge n k).edges ↔ e ∈ g.edges ∨ e = (n, k) := by
  unfold addEdge
  split
  · next h =>
    refine ⟨.inl, ?_⟩
    intro hr
    rcases hr with he | rfl
    · exact he
    · exact hasEdge_iff.mp h
  · exact Array.mem_push

@[simp] theorem nodes_addEdge : (g.addEdge n k).nodes = g.nodes := by
  unfold addEdge
  split <;> rfl

@[simp] theorem pointer?_addEdge {i : Nat} : (g.addEdge n k).pointer? i = g.pointer? i := by
  simp [pointer?]

@[simp] theorem objects_addEdge {i : Nat} : (g.addEdge n k).objects i = g.objects i := by
  simp [objects]

theorem holds_addEdge : (g.addEdge n k).Holds A o ↔ g.Holds A o := by
  simp [Holds]

theorem flows_addEdge (hn : g.pointer? n = some P) (hk : g.pointer? k = some Q) :
    (g.addEdge n k).Flows A B ↔ g.Flows A B ∨ A = P ∧ B = Q := by
  constructor
  · intro h
    obtain ⟨i, j, hA, hB, he⟩ := h
    rw [pointer?_addEdge] at hA hB
    rcases mem_addEdge.mp he with he | he
    · exact .inl ⟨i, j, hA, hB, he⟩
    · cases he
      rw [hn] at hA
      rw [hk] at hB
      cases hA
      cases hB
      exact .inr ⟨rfl, rfl⟩
  · intro h
    rcases h with ⟨i, j, hA, hB, he⟩ | ⟨rfl, rfl⟩
    · exact ⟨i, j, by simpa using hA, by simpa using hB, mem_addEdge.mpr (.inl he)⟩
    · exact ⟨n, k, by simpa using hn, by simpa using hk, mem_addEdge.mpr (.inr rfl)⟩

theorem Valid.addEdge (h : g.Valid) (hn : n < g.nodes.size) (hk : k < g.nodes.size) :
    (g.addEdge n k).Valid where
  distinct hi hj := by
    rw [pointer?_addEdge] at hi hj
    exact h.distinct hi hj
  edge_lt he := by
    rw [nodes_addEdge]
    rcases mem_addEdge.mp he with he | he
    · exact h.edge_lt he
    · cases he
      exact ⟨hn, hk⟩
  edges_nodup := by
    unfold PointerGraph.addEdge
    split
    · exact h.edges_nodup
    · next hnew =>
      rw [Array.toList_push]
      refine List.nodup_append.mpr ⟨h.edges_nodup, List.pairwise_singleton _ _, fun e he e' he' => ?_⟩
      rw [List.mem_singleton.mp he']
      rintro rfl
      exact hnew (hasEdge_iff.mpr (Array.mem_toList_iff.mp he))

/-! ### New objects -/

@[simp] theorem size_addObjects {objects : ObjSet} :
    (g.addObjects n objects).nodes.size = g.nodes.size := by
  simp [addObjects]

@[simp] theorem pointer?_addObjects {objects : ObjSet} {i : Nat} :
    (g.addObjects n objects).pointer? i = g.pointer? i := by
  simp only [pointer?, addObjects, Array.getElem?_modify]
  split <;> simp [Function.comp_def]

theorem mem_objects_addObjects {objects : ObjSet} {i : Nat} (hn : n < g.nodes.size) :
    o ∈ (g.addObjects n objects).objects i ↔ o ∈ g.objects i ∨ i = n ∧ o ∈ objects := by
  simp only [PointerGraph.objects, addObjects, Array.getElem?_modify]
  by_cases h : n = i
  · subst h
    simp [Array.getElem?_eq_getElem hn]
  · simp [h, Ne.symm h]

theorem holds_addObjects {objects : ObjSet} (hn : g.pointer? n = some P) :
    (g.addObjects n objects).Holds A o ↔ g.Holds A o ∨ A = P ∧ o ∈ objects := by
  have hlt := lt_of_pointer? hn
  constructor
  · intro h
    obtain ⟨i, hi, ho⟩ := h
    rw [pointer?_addObjects] at hi
    rcases (mem_objects_addObjects hlt).mp ho with hold | ⟨rfl, hnew⟩
    · exact .inl ⟨i, hi, hold⟩
    · rw [hn] at hi
      exact .inr ⟨(Option.some.inj hi).symm, hnew⟩
  · intro h
    rcases h with ⟨i, hi, ho⟩ | ⟨rfl, ho⟩
    · exact ⟨i, by simpa using hi, (mem_objects_addObjects hlt).mpr (.inl ho)⟩
    · exact ⟨n, by simpa using hn, (mem_objects_addObjects hlt).mpr (.inr ⟨rfl, ho⟩)⟩

theorem flows_addObjects {objects : ObjSet} :
    (g.addObjects n objects).Flows A B ↔ g.Flows A B := by
  unfold Flows
  simp only [pointer?_addObjects]
  rfl

theorem Valid.addObjects {objects : ObjSet} (h : g.Valid) : (g.addObjects n objects).Valid where
  distinct hi hj := by
    rw [pointer?_addObjects] at hi hj
    exact h.distinct hi hj
  edge_lt he := by
    rw [size_addObjects]
    exact h.edge_lt he
  edges_nodup := h.edges_nodup

theorem mem_succs : k ∈ g.succs n ↔ (n, k) ∈ g.edges := by
  simp only [succs, List.mem_reverse, List.mem_map, List.mem_filter, Array.mem_toList_iff,
    beq_iff_eq, Prod.exists]
  constructor
  · intro h
    obtain ⟨_, _, ⟨he, rfl⟩, rfl⟩ := h
    exact he
  · intro he
    exact ⟨n, k, ⟨he, rfl⟩, rfl⟩

end PointerGraph
end ProgramAnalysis
