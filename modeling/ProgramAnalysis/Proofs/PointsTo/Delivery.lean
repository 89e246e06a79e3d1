import ProgramAnalysis.Proofs.PointsTo.Step

/-! Delivery of one entry of the work list: what is new at its node is held there from then on, and
is on its way to the successors of the node. -/
namespace ProgramAnalysis.PointsTo

variable {q : Problem} {S : Facts} {s t : State} {n : Nat} {objects : ObjSet}

theorem State.foldl_enqueue (ks : List Nat) (s : State) (objects : ObjSet) :
    ks.foldl (fun s k => s.enqueue k objects) s =
      { s with work := s.work ++ ks.map fun k => (k, objects) } := by
  induction ks generalizing s with
  | nil => simp
  | cons k ks ih =>
    rw [List.foldl_cons, ih]
    simp [State.enqueue]

/-- `t` is `s` after an entry for node `n` has been taken off the work list: the node holds `delta`
as well, and the rest of the state only grows. -/
structure Delivered (q : Problem) (S : Facts) (n : Nat) (s : State) (delta : ObjSet) (t : State) :
    Prop where
  inv : Inv q S t
  grows : Grows s t
  holds : ∀ {P o}, t.graph.Holds P o ↔
    s.graph.Holds P o ∨ s.graph.pointer? n = some P ∧ o ∈ delta
  pointer : t.graph.pointer? n = s.graph.pointer? n
  calls : t.calls = s.calls
  pending : t.pending = s.pending

/-- Nothing is new: the entry is dropped. -/
theorem Inv.drop {work : List (Nat × ObjSet)} (hs : Inv q S s) (hwork : s.work = (n, objects) :: work)
    (hold : ∀ {o}, o ∈ objects → o ∈ s.graph.objects n) (entries : Nat) :
    Delivered q S n s .empty { s with work, workListEntries := entries } := by
  have hreach : ∀ {P o}, s.Reaches P o →
      State.Reaches { s with work, workListEntries := entries } P o := by
    intro P o h
    rcases h with ho | ⟨k, os, hk, hP, ho⟩
    · exact .inl ho
    · rw [hwork] at hk
      rcases List.mem_cons.mp hk with heq | hk
      · cases heq
        exact .inl ⟨n, hP, hold ho⟩
      · exact .inr ⟨k, os, hk, hP, ho⟩
  refine ⟨⟨⟨hs.wellFormed.graph, fun hk => ?_⟩, hs.heap, hs.allocated, hs.named, fun hf ho => ?_,
    fun hr => ?_, hs.admitted, hs.edge, hs.reachable, hs.nodup, hs.pending⟩,
    ⟨s.heap.le_refl, id, id, id, hreach, id, id⟩, ?_, rfl, rfl, rfl⟩
  · exact hs.wellFormed.work_lt (hwork ▸ List.mem_cons_of_mem _ hk)
  · exact hreach (hs.carried hf ho)
  · refine hs.justified (hr.imp_right ?_)
    intro h
    obtain ⟨k, os, hk, hP, ho⟩ := h
    exact ⟨k, os, hwork ▸ List.mem_cons_of_mem _ hk, hP, ho⟩
  · exact ⟨.inl, fun h => h.resolve_right fun h => HandleSet.not_mem_empty _ h.2⟩

/-- `t` is `s` after the first entry has been taken off the work list, and `delta` has gone to node
`n` and to the end of the work list for its successors. -/
structure Forwarded (s : State) (n : Nat) (work : List (Nat × ObjSet)) (delta : ObjSet)
    (t : State) : Prop where
  graph : t.graph = s.graph.addObjects n delta
  work : t.work = work ++ (s.graph.succs n).map fun k => (k, delta)
  heap : t.heap = s.heap
  calls : t.calls = s.calls
  pending : t.pending = s.pending

namespace Forwarded

variable {work : List (Nat × ObjSet)} {delta : ObjSet} {P Q P₀ : Pointer} {o : ObjId} {k : Nat}

theorem mem_work (hf : Forwarded s n work delta t) :
    (k, objects) ∈ t.work ↔ (k, objects) ∈ work ∨ (n, k) ∈ s.graph.edges ∧ objects = delta := by
  rw [hf.work]
  simp only [List.mem_append, List.mem_map, PointerGraph.mem_succs, Prod.mk.injEq]
  refine or_congr_right ⟨fun h => ?_, fun h => ?_⟩
  · obtain ⟨_, he, rfl, rfl⟩ := h
    exact ⟨he, rfl⟩
  · obtain ⟨he, rfl⟩ := h
    exact ⟨k, he, rfl, rfl⟩

theorem holds (hf : Forwarded s n work delta t) (hn : s.graph.pointer? n = some P₀) :
    t.graph.Holds P o ↔ s.graph.Holds P o ∨ P = P₀ ∧ o ∈ delta := by
  rw [hf.graph]
  exact PointerGraph.holds_addObjects hn

theorem flows (hf : Forwarded s n work delta t) : t.graph.Flows P Q ↔ s.graph.Flows P Q := by
  rw [hf.graph]
  exact PointerGraph.flows_addObjects

theorem pointer? (hf : Forwarded s n work delta t) : t.graph.pointer? k = s.graph.pointer? k := by
  rw [hf.graph]
  exact PointerGraph.pointer?_addObjects

theorem awaits (hf : Forwarded s n work delta t) (hwork : s.work = (n, objects) :: work)
    (hn : s.graph.pointer? n = some P₀) (h : t.Awaits P o) :
    s.Awaits P o ∨ s.graph.Flows P₀ P ∧ o ∈ delta := by
  obtain ⟨k, os, hk, hP, ho⟩ := h
  rw [hf.pointer?] at hP
  rcases hf.mem_work.mp hk with hk | ⟨he, rfl⟩
  · exact .inl ⟨k, os, hwork ▸ List.mem_cons_of_mem _ hk, hP, ho⟩
  · exact .inr ⟨⟨n, k, hn, hP, he⟩, ho⟩

/-- What the entry had on its way to the node is held there. -/
theorem reaches (hf : Forwarded s n work delta t) (hwork : s.work = (n, objects) :: work)
    (hn : s.graph.pointer? n = some P₀)
    (hdelta : ∀ {o}, o ∈ delta ↔ o ∈ objects ∧ o ∉ s.graph.objects n) (h : s.Reaches P o) :
    t.Reaches P o := by
  rcases h with ho | ⟨k, os, hk, hP, ho⟩
  · exact .inl ((hf.holds hn).mpr (.inl ho))
  · rw [hwork] at hk
    rcases List.mem_cons.mp hk with heq | hk
    · cases heq
      rw [hn] at hP
      cases hP
      by_cases hold : o ∈ s.graph.objects n
      · exact .inl ((hf.holds hn).mpr (.inl ⟨n, hn, hold⟩))
      · exact .inl ((hf.holds hn).mpr (.inr ⟨rfl, hdelta.mpr ⟨ho, hold⟩⟩))
    · exact .inr ⟨k, os, hf.mem_work.mpr (.inl hk), by rwa [hf.pointer?], ho⟩

end Forwarded

/-- What is new goes to the node and to the work list for its successors. -/
theorem Inv.forward {work : List (Nat × ObjSet)} {delta : ObjSet} (hs : Inv q S s)
    (hwork : s.work = (n, objects) :: work)
    (hdelta : ∀ {o}, o ∈ delta ↔ o ∈ objects ∧ o ∉ s.graph.objects n)
    (hf : Forwarded s n work delta t) : Delivered q S n s delta t := by
  have hlt : n < s.graph.nodes.size := hs.wellFormed.work_lt (hwork ▸ List.mem_cons_self)
  obtain ⟨P₀, hn⟩ := PointerGraph.exists_pointer? hlt
  have hhead : ∀ {o}, o ∈ delta → s.Awaits P₀ o := fun ho =>
    ⟨n, objects, hwork ▸ List.mem_cons_self, hn, (hdelta.mp ho).1⟩
  have hreach : ∀ {P o}, s.Reaches P o → t.Reaches P o := hf.reaches hwork hn hdelta
  have hinv : Inv q S t := by
    refine ⟨⟨hf.graph ▸ hs.wellFormed.graph.addObjects, fun {k os} hk => ?_⟩, hf.heap ▸ hs.heap,
      hf.heap ▸ hs.allocated,
      fun {k P} hP => ?_, fun {P Q o} hflow ho => ?_, fun {P o} hr => ?_, fun {P Q} hflow => ?_,
      hf.calls ▸ hs.edge, hf.calls ▸ hs.reachable, hf.calls ▸ hs.nodup, ?_⟩
    · rw [hf.graph, PointerGraph.size_addObjects]
      rcases hf.mem_work.mp hk with hk | ⟨he, _⟩
      · exact hs.wellFormed.work_lt (hwork ▸ List.mem_cons_of_mem _ hk)
      · exact (hs.wellFormed.graph.edge_lt he).2
    · rw [hf.pointer?] at hP
      rw [hf.heap]
      exact hs.named hP
    · rcases (hf.holds hn).mp ho with ho | ⟨rfl, ho⟩
      · exact hreach (hs.carried (hf.flows.mp hflow) ho)
      · obtain ⟨i, k, hi, hk, he⟩ := hf.flows.mp hflow
        rw [hs.wellFormed.graph.distinct hi hn] at he
        exact .inr ⟨k, delta, hf.mem_work.mpr (.inr ⟨he, rfl⟩), by rwa [hf.pointer?], ho⟩
    · rw [hf.heap]
      rcases hr with ho | hw
      · rcases (hf.holds hn).mp ho with ho | ⟨rfl, ho⟩
        · exact hs.justified (.inl ho)
        · exact hs.justified (.inr (hhead ho))
      · rcases hf.awaits hwork hn hw with hw | ⟨hflow, ho⟩
        · exact hs.justified (.inr hw)
        · exact (hs.admitted hflow).justified (hs.justified (.inr (hhead ho)))
    · rw [hf.heap]
      exact hs.admitted (hf.flows.mp hflow)
    · rw [hf.pending, hf.calls]
      exact hs.pending
  have hgrows : Grows s t := by
    refine ⟨?_, hf.pointer?.trans, fun ho => (hf.holds hn).mpr (.inl ho), hf.flows.mpr, hreach,
      ?_, ?_⟩
    · rw [hf.heap]
      exact s.heap.le_refl
    · rw [hf.calls]
      exact id
    · rw [hf.calls]
      exact id
  refine ⟨hinv, hgrows, fun {P o} => ?_, hf.pointer?, hf.calls, hf.pending⟩
  rw [hf.holds hn, hn, Option.some.injEq, eq_comm (a := P)]

theorem Inv.propagate {work : List (Nat × ObjSet)} (hs : Inv q S s)
    (hwork : s.work = (n, objects) :: work) (entries : Nat) :
    Traced.Returns (propagate { s with work, workListEntries := entries } n objects) fun r =>
      Delivered q S n s r.1 r.2 := by
  obtain ⟨pointer, hpointer⟩ :=
    PointerGraph.exists_pointer? (hs.wellFormed.work_lt (hwork ▸ List.mem_cons_self))
  unfold PointsTo.propagate
  rw [Traced.returns_lift_bind (orDangling_eq_ok_iff.mpr hpointer)]
  dsimp only
  have hdiff : ∀ {o}, o ∈ objects.diff (s.graph.objects n) ↔
      o ∈ objects ∧ o ∉ s.graph.objects n := HandleSet.mem_diff
  by_cases hempty : (objects.diff (s.graph.objects n)).isEmpty = true
  · rw [if_pos hempty, Traced.returns_pure]
    have hnil : objects.diff (s.graph.objects n) = .empty := by
      have hnil := List.isEmpty_iff.mp hempty
      cases hd : objects.diff (s.graph.objects n)
      rw [hd] at hnil
      dsimp only at hnil
      subst hnil
      rfl
    rw [hnil] at hdiff ⊢
    refine hs.drop hwork (fun {o} ho => ?_) entries
    by_contra hold
    exact HandleSet.not_mem_empty o (hdiff.mpr ⟨ho, hold⟩)
  · rw [if_neg hempty]
    rw [Traced.returns_log_bind, Traced.returns_pure, State.foldl_enqueue]
    exact hs.forward hwork hdiff ⟨rfl, rfl, rfl, rfl, rfl⟩

end ProgramAnalysis.PointsTo
