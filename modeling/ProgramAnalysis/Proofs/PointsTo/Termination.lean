import ProgramAnalysis.Proofs.PointsTo.Arrival
import ProgramAnalysis.Proofs.PointsTo.Bound

/-! The solver ends. Every entry of the work list is paid for, so that the number of entries is
bounded by the size that a state can get, and `stepBound` steps empty the work list. -/
namespace ProgramAnalysis.PointsTo

variable {q : Problem} {S : Facts} {s t : State} {entry : MethodId} {n : Nat} {objects : ObjSet}

/-- What is new at a node pays for the entries of its successors, with something left over. -/
theorem propagate_spends (price : Nat) {work : List (Nat × ObjSet)} {entries : Nat}
    (hn : n < s.graph.nodes.size) (hwork : s.work = (n, objects) :: work)
    (hentries : entries = s.workListEntries + 1) :
    Traced.Ensures (propagate { s with work, workListEntries := entries } n objects) fun r =>
      r.2.debt price + price * r.1.size ≤
        s.debt price + (if r.1.size = 0 then 0 else s.graph.edges.size) ∧
      r.2.unread q.program = s.unread q.program ∧ r.2.workListEntries = entries := by
  unfold propagate
  refine Traced.ensures_true.bind fun pointer _ => ?_
  dsimp only
  split
  · next hempty =>
    have hsize : (objects.diff (s.graph.objects n)).size = 0 :=
      List.length_eq_zero_iff.mpr (List.isEmpty_iff.mp hempty)
    refine Traced.ensures_pure.mpr ⟨?_, rfl, rfl⟩
    simp only [State.debt, hsize, hwork, hentries, List.length_cons, if_pos]
    push_cast
    omega
  · next hne =>
    generalize hdelta : objects.diff (s.graph.objects n) = delta at hne ⊢
    refine Traced.ensures_true.bind fun _ _ => Traced.ensures_pure.mpr ?_
    have hnew : ∀ o ∈ delta, o ∉ s.graph.objects n := fun o ho =>
      (HandleSet.mem_diff.mp (hdelta ▸ ho)).2
    have hfacts := PointerGraph.factCount_addObjects hn hnew
    have hsuccs : (s.graph.succs n).length ≤ s.graph.edges.size := by
      unfold PointerGraph.succs
      rw [List.length_reverse, List.length_map, ← Array.length_toList]
      exact List.length_filter_le _ _
    have hpos : delta.size ≠ 0 := fun h =>
      hne (List.isEmpty_iff.mpr (List.length_eq_zero_iff.mp h))
    have hpay := Nat.mul_le_mul_left price hfacts
    rw [Nat.mul_add] at hpay
    rw [State.foldl_enqueue]
    refine ⟨?_, rfl, rfl⟩
    rw [if_neg hpos]
    have hedges : (s.graph.addObjects n delta).edges = s.graph.edges := rfl
    have hksuccs : (s.graph.addObjects n delta).succs n = s.graph.succs n := rfl
    simp only [State.debt, hwork, hentries, List.length_cons, List.length_append, List.length_map,
      hedges, hksuccs]
    have hpay : (price * s.graph.factCount + price * delta.size : Int) ≤
        price * (s.graph.addObjects n delta).factCount := by exact_mod_cast hpay
    push_cast
    omega

/-- The debt that a state may have: none, and every reached statement that is not pending has been
processed. -/
structure Paid (q : Problem) (s : State) : Prop where
  debt : s.debt (extent q.program ^ 4 + extent q.program) ≤ 0
  unread : s.unread q.program = 0

theorem Inv.step_paid (hp : Serves q S) (hS : S.Satisfies q entry) (hs : Inv q S s)
    (hset : Settled q s) (hpaid : Paid q s) : Traced.Returns (PointsTo.step q s) fun r =>
      Paid q r.2 ∧ r.2.workListEntries = s.workListEntries + if r.1 then 1 else 0 := by
  let price := extent q.program ^ 4 + extent q.program
  have hfuel := hs.pending_fuel
  unfold PointsTo.step
  refine ((hs.processPending hp hS _ hset hfuel).of_ensures
    (Spends.processPending price _ s)).bind ?_
  intro t h
  obtain ⟨⟨ht, -⟩, hst⟩ := h
  have hdebt := hst.debt
  have hunread := hst.unread
  have hpaid' := hpaid.debt
  have hunread' := hpaid.unread
  split
  · next hwork =>
    refine Traced.returns_pure.mpr ⟨⟨?_, by dsimp only; omega⟩, by simpa using hst.entries⟩
    exact Int.le_trans (by simpa using hdebt) hpaid'
  · next n objects work hwork =>
    have hn : n < t.graph.nodes.size := ht.wellFormed.work_lt (hwork ▸ List.mem_cons_self)
    obtain ⟨pointer, hpointer⟩ := PointerGraph.exists_pointer? hn
    refine ((ht.propagate hwork (t.workListEntries + 1)).of_ensures
      (propagate_spends (q := q) price hn hwork rfl)).bind ?_
    intro r hr
    obtain ⟨delta, u⟩ := r
    obtain ⟨hd, hspent, hunread₁, hentries⟩ := hr
    dsimp only at hd hspent hunread₁ hentries ⊢
    have hheld : ∀ {P o}, u.graph.pointer? n = some P → o ∈ delta → u.graph.Holds P o :=
      fun hP ho => hd.holds.mpr (.inr ⟨hd.pointer ▸ hP, ho⟩)
    refine ((hd.inv.processArrivals hp hS (hd.pointer.trans hpointer) hheld).of_ensures
      (Spends.processArrivals price u n delta)).bind ?_
    intro w hw
    obtain ⟨-, huw⟩ := hw
    have hdebt₂ := huw.debt
    have hunread₂ := huw.unread
    refine Traced.returns_pure.mpr ⟨⟨?_, by dsimp only; omega⟩, ?_⟩
    · have hedges := ht.edges_size_le
      have hstmts : statementCount q.program ≤ extent q.program := by unfold extent; omega
      have hcosts : (if delta.size = 0 then 0 else t.graph.edges.size) +
          delta.size * statementCount q.program ≤ price * delta.size := by
        split
        · next hzero => simp [hzero]
        · next hpos =>
          calc t.graph.edges.size + delta.size * statementCount q.program
              ≤ extent q.program ^ 4 * delta.size + extent q.program * delta.size := by
                refine Nat.add_le_add ?_ ?_
                · exact Nat.le_trans hedges (Nat.le_mul_of_pos_right _ (Nat.pos_of_ne_zero hpos))
                · rw [Nat.mul_comm]
                  exact Nat.mul_le_mul_right _ hstmts
            _ = price * delta.size := (Nat.add_mul _ _ _).symm
      have hcosts : ((if delta.size = 0 then 0 else t.graph.edges.size : Nat) +
          delta.size * statementCount q.program : Int) ≤ price * delta.size := by
        exact_mod_cast hcosts
      show w.debt price ≤ 0
      change s.debt price ≤ 0 at hpaid'
      omega
    · rw [huw.entries, hentries, hst.entries]
      rfl

theorem Inv.processed_le (hs : Inv q S s) (hpaid : Paid q s) :
    s.statementsProcessed ≤ statementCount q.program := by
  have hsub : s.calls.reachable.toList ⊆ q.program.methodIds := fun m hm =>
    mem_methodIds (hs.reachable (Array.mem_toList_iff.mp hm)).2
  have hle : bodySizes q.program s.calls.reachable.toList ≤ statementCount q.program :=
    total_le_of_subset hs.nodup hsub
  have hunread := hpaid.unread
  unfold State.unread at hunread
  omega

theorem Inv.entries_lt (hs : Inv q S s) (hpaid : Paid q s) :
    s.workListEntries < stepBound q.program := by
  have hedges := hs.edges_size_le
  have hfacts := hs.factCount_le
  have hprocessed := hs.processed_le hpaid
  have hdebt := hpaid.debt
  unfold State.debt at hdebt
  show _ < 4 * extent q.program ^ 7 + 1
  have hstmts : statementCount q.program ≤ extent q.program := by unfold extent; omega
  have hpos : 1 ≤ extent q.program := by unfold extent; omega
  generalize extent q.program = z at *
  have hprice : (z ^ 4 + z) * s.graph.factCount ≤ z ^ 7 + z ^ 4 :=
    calc (z ^ 4 + z) * s.graph.factCount ≤ (z ^ 4 + z) * z ^ 3 := Nat.mul_le_mul_left _ hfacts
      _ = z ^ 7 + z ^ 4 := by ring
  have hone : z ≤ z ^ 7 := Nat.le_self_pow (by omega) z
  have hfour : z ^ 4 ≤ z ^ 7 := Nat.pow_le_pow_right hpos (by omega)
  have hdebt : (s.workListEntries + s.work.length : Int) ≤
      s.statementsProcessed + s.graph.edges.size + ((z ^ 4 + z) * s.graph.factCount : Nat) := by
    push_cast at hdebt ⊢
    omega
  omega

/-- The bound is large enough: a run ends with nothing left to do. -/
theorem Inv.run (hp : Serves q S) (hS : S.Satisfies q entry) (fuel : Nat) (hs : Inv q S s)
    (hset : Settled q s) (hpaid : Paid q s)
    (hfuel : stepBound q.program ≤ s.workListEntries + fuel) :
    Traced.Returns (PointsTo.run q fuel s) fun t =>
      Inv q S t ∧ Settled q t ∧ Grows s t ∧ t.work = [] ∧ t.pending = [] := by
  induction fuel generalizing s with
  | zero =>
    have hlt := hs.entries_lt hpaid
    omega
  | succ fuel ih =>
    unfold PointsTo.run
    refine ((hs.step hp hS hset).and (hs.step_paid hp hS hset hpaid)).bind ?_
    intro r hr
    obtain ⟨more, t⟩ := r
    obtain ⟨⟨ht, hset', hgrows, hend⟩, hpaid', hentries⟩ := hr
    dsimp only at *
    cases more with
    | false => exact Traced.returns_pure.mpr ⟨ht, hset', hgrows, hend rfl⟩
    | true =>
      rw [if_pos rfl] at hentries
      refine (ih ht hset' hpaid' (by omega)).mono ?_
      intro u h
      obtain ⟨hu, hset'', hgrows', hend'⟩ := h
      exact ⟨hu, hset'', hgrows.trans hgrows', hend'⟩

/-! ### From the start to the end -/

theorem inv_initial (q : Problem) (S : Facts) : Inv q S .initial where
  wellFormed := ⟨PointerGraph.valid_empty, fun h => by cases h⟩
  heap := Heap.valid_empty
  allocated h := by simp [State.initial, Heap.object?, Heap.empty] at h
  named h := by simp [State.initial, PointerGraph.pointer?, PointerGraph.empty] at h
  carried := by
    intro P Q o ho
    obtain ⟨n, k, hn, _⟩ := ho
    simp [State.initial, PointerGraph.pointer?, PointerGraph.empty] at hn
  justified := by
    intro P o ho
    rcases ho with ⟨n, hn, _⟩ | ⟨n, os, hm, _⟩
    · simp [State.initial, PointerGraph.pointer?, PointerGraph.empty] at hn
    · cases hm
  admitted := by
    intro P Q hr
    obtain ⟨n, k, hn, _⟩ := hr
    simp [State.initial, PointerGraph.pointer?, PointerGraph.empty] at hn
  edge h := by simp [State.initial, CallGraph.empty] at h
  reachable h := by simp [State.initial, CallGraph.empty] at h
  nodup := List.nodup_nil
  pending := List.suffix_rfl

theorem start_ok (hS : S.Satisfies q entry) (hentry : q.entry.or q.program.entry = some entry)
    (hlt : entry.index < q.program.methods.size) : Traced.Returns (start q .initial) fun t =>
      Inv q S t ∧ Settled q t ∧ Paid q t ∧ entry ∈ t.calls.reachable := by
  let price := extent q.program ^ 4 + extent q.program
  let s₀ : State := { State.initial with calls := CallGraph.empty.addEntry entry }
  have hinv : Inv q S s₀ :=
    (inv_initial q S).withCalls (fun h => by simp [CallGraph.empty, CallGraph.addEntry] at h)
      (fun h => by simp [CallGraph.empty, CallGraph.addEntry] at h) List.nodup_nil
      List.suffix_rfl
  unfold start
  rw [if_neg (by simp [State.initial]), hentry]
  dsimp only
  rw [Traced.returns_log_bind]
  refine ((hinv.reach hS.entry hlt).of_ensures
    (Spends.reach q.program price s₀ entry)).bind ?_
  intro t hr
  obtain ⟨⟨ht, hext, hreach, hedges, -⟩, hspent⟩ := hr
  refine Traced.returns_pure.mpr ⟨?_, ?_, ?_, hreach⟩
  · exact ⟨⟨ht.wellFormed.graph, ht.wellFormed.work_lt⟩, ht.heap, ht.allocated, ht.named,
      ht.carried, ht.justified, ht.admitted, ht.edge, ht.reachable, ht.nodup, ht.pending⟩
  · have hprog : Progress q s₀ { t with started := true } :=
      .of_edges ⟨hext.heap, hext.node, hext.holds, hext.flows, hext.awaits, hext.reached,
        hext.edges⟩ hedges
    refine Settled.of_progress hprog ?_ ?_ ?_
    · intro e he
      simp [s₀, CallGraph.empty, CallGraph.addEntry] at he
    · intro v o site st kind hr
      obtain ⟨n, hn, _⟩ := hr
      simp [s₀, State.initial, PointerGraph.pointer?, PointerGraph.empty] at hn
    · intro site st hm
      simp [s₀, CallGraph.empty, CallGraph.addEntry] at hm
  · have hdebt := hspent.debt
    have hunread := hspent.unread
    have hzero : s₀.debt price = 0 := by
      simp [s₀, State.debt, State.initial, PointerGraph.empty, PointerGraph.factCount, total]
    have hread : s₀.unread q.program = 0 := by
      simp [s₀, State.unread, State.initial, CallGraph.empty, CallGraph.addEntry]
    refine ⟨?_, ?_⟩
    · show t.debt price ≤ 0
      omega
    · show t.unread q.program = 0
      omega

/-- The solver ends in a state in which nothing is left to do. -/
theorem solve_ok (hp : Serves q S) (hS : S.Satisfies q entry)
    (hentry : q.entry.or q.program.entry = some entry)
    (hlt : entry.index < q.program.methods.size) : Traced.Returns (solve q .initial) fun t =>
      Inv q S t ∧ Settled q t ∧ entry ∈ t.calls.reachable ∧ t.work = [] ∧ t.pending = [] := by
  unfold solve
  refine (start_ok hS hentry hlt).bind ?_
  intro s h
  obtain ⟨hs, hset, hpaid, hreach⟩ := h
  refine (hs.run hp hS _ hset hpaid (Nat.le_add_left _ _)).bind ?_
  intro t h
  obtain ⟨ht, hset', hgrows, hwork, hpending⟩ := h
  rw [Traced.returns_log_bind, Traced.returns_pure]
  exact ⟨ht, hset', hgrows.reachable hreach, hwork, hpending⟩

end ProgramAnalysis.PointsTo
