import ProgramAnalysis.DeadCode
import ProgramAnalysis.Proofs.Counting
import ProgramAnalysis.Proofs.Dataflow.Cfg
import ProgramAnalysis.Proofs.Traced

/-! The walk over feasible edges: it starts at the entry, leaves out no node that a feasible edge
leads to from a node it has reached, and comes to no other. -/
namespace ProgramAnalysis.DeadCode

variable {p : Program} {c : Cfg} {constants : Constant.Facts} {n k : Node} {m : MethodId} {b : Body}
  {e : FlowEdge}

/-! ### The walk -/

/-- The nodes that a step of the walk finds. -/
def fresh (ks seen : List Node) : List Node :=
  ks.foldl (fun found k => if k ∈ seen ∨ k ∈ found then found else found ++ [k]) []

section Fresh

variable {ks seen found : List Node} {j : Node}

/-- One more node found, unless it is known. -/
def find (seen found : List Node) (k : Node) : List Node :=
  if k ∈ seen ∨ k ∈ found then found else found ++ [k]

theorem fresh_eq : fresh ks seen = ks.foldl (find seen) [] := rfl

theorem mem_find : j ∈ find seen found k ↔ j ∈ found ∨ j = k ∧ k ∉ seen := by
  unfold find
  split
  · next hk =>
    refine ⟨.inl, fun hj => hj.elim id fun hj => ?_⟩
    exact hj.1 ▸ hk.resolve_left hj.2
  · next hk =>
    rw [not_or] at hk
    simp [hk.1]

theorem nodup_find (hfound : found.Nodup) : (find seen found k).Nodup := by
  unfold find
  split
  · exact hfound
  · next hk =>
    refine List.nodup_append.mpr ⟨hfound, List.nodup_singleton k, fun x hx y hy => ?_⟩
    intro heq
    exact hk (.inr (List.mem_singleton.mp hy ▸ heq ▸ hx))

theorem mem_foldl_find : j ∈ ks.foldl (find seen) found ↔ j ∈ found ∨ j ∈ ks ∧ j ∉ seen := by
  induction ks generalizing found with
  | nil => simp
  | cons k ks ih =>
    rw [List.foldl_cons, ih, mem_find, List.mem_cons, or_and_right, or_assoc]
    refine or_congr_right (or_congr_left ⟨fun h => ?_, fun h => ?_⟩)
    · exact ⟨h.1, h.1 ▸ h.2⟩
    · exact ⟨h.1, h.1 ▸ h.2⟩

theorem nodup_foldl_find (hfound : found.Nodup) : (ks.foldl (find seen) found).Nodup := by
  induction ks generalizing found with
  | nil => exact hfound
  | cons k ks ih => exact ih (nodup_find hfound)

theorem mem_fresh : k ∈ fresh ks seen ↔ k ∈ ks ∧ k ∉ seen := by
  rw [fresh_eq, mem_foldl_find]
  simp

theorem nodup_fresh : (fresh ks seen).Nodup := nodup_foldl_find List.nodup_nil

end Fresh

/-- What the walk keeps, over the nodes `ns`: the nodes that it has seen but not left are queued. -/
structure Walking (next : Node → List Node) (ns queue seen : List Node) : Prop where
  nodup : seen.Nodup
  subset : ∀ k ∈ seen, k ∈ ns
  queued : ∀ k ∈ queue, k ∈ seen
  left : ∀ k ∈ seen, k ∈ queue ∨ ∀ j ∈ next k, j ∈ seen

section Walk

variable {next : Node → List Node} {ns queue seen : List Node}

theorem Walking.step (hnext : ∀ k ∈ ns, ∀ j ∈ next k, j ∈ ns)
    (hw : Walking next ns (k :: queue) seen) :
    Walking next ns (queue ++ fresh (next k) seen) (seen ++ fresh (next k) seen) := by
  have hk := hw.queued k List.mem_cons_self
  refine ⟨?_, fun j hj => ?_, fun j hj => ?_, fun j hj => ?_⟩
  · refine List.nodup_append.mpr ⟨hw.nodup, nodup_fresh, fun x hx y hy heq => ?_⟩
    exact (mem_fresh.mp hy).2 (heq ▸ hx)
  · rcases List.mem_append.mp hj with hj | hj
    · exact hw.subset j hj
    · exact hnext k (hw.subset k hk) j (mem_fresh.mp hj).1
  · rcases List.mem_append.mp hj with hj | hj
    · exact List.mem_append_left _ (hw.queued j (List.mem_cons_of_mem k hj))
    · exact List.mem_append_right _ hj
  · rcases List.mem_append.mp hj with hj | hj
    · rcases hw.left j hj with hq | hleft
      · rcases List.mem_cons.mp hq with rfl | hq
        · refine .inr fun i hi => ?_
          by_cases hseen : i ∈ seen
          · exact List.mem_append_left _ hseen
          · exact List.mem_append_right _ (mem_fresh.mpr ⟨hi, hseen⟩)
        · exact .inl (List.mem_append_left _ hq)
      · exact .inr fun i hi => List.mem_append_left _ (hleft i hi)
    · exact .inl (List.mem_append_right _ hj)

/-- The walk ends with nothing queued: each step takes a node from the queue, and a node is queued
once. -/
theorem walk_closed (hnext : ∀ k ∈ ns, ∀ j ∈ next k, j ∈ ns) (fuel : Nat)
    (hw : Walking next ns queue seen) (hfuel : ns.length + 1 + queue.length ≤ fuel + seen.length) :
    (∀ k ∈ seen, k ∈ walk next fuel queue seen) ∧
      ∀ k ∈ walk next fuel queue seen, ∀ j ∈ next k, j ∈ walk next fuel queue seen := by
  induction fuel generalizing queue seen with
  | zero =>
    have hlength := List.Nodup.length_le_of_subset hw.nodup hw.subset
    omega
  | succ fuel ih =>
    cases queue with
    | nil => exact ⟨fun k hk => hk, fun k hk => (hw.left k hk).resolve_left nofun⟩
    | cons k queue =>
      have hfuel' : ns.length + 1 + (queue ++ fresh (next k) seen).length ≤
          fuel + (seen ++ fresh (next k) seen).length := by
        rw [List.length_append, List.length_append]
        rw [List.length_cons] at hfuel
        omega
      obtain ⟨hseen, hclosed⟩ := ih (hw.step hnext) hfuel'
      exact ⟨fun j hj => hseen j (List.mem_append_left _ hj), hclosed⟩

/-- The walk stays within whatever holds what it starts from and is closed under its steps. -/
theorem walk_subset {S : Node → Prop} (hnext : ∀ k, S k → ∀ j ∈ next k, S j) (fuel : Nat)
    (hqueue : ∀ k ∈ queue, S k) (hseen : ∀ k ∈ seen, S k) :
    ∀ k ∈ walk next fuel queue seen, S k := by
  induction fuel generalizing queue seen with
  | zero => exact hseen
  | succ fuel ih =>
    cases queue with
    | nil => exact hseen
    | cons k queue =>
      obtain ⟨hk, hqueue⟩ := List.forall_mem_cons.mp hqueue
      have hfresh : ∀ j ∈ fresh (next k) seen, S j := fun j hj => hnext k hk j (mem_fresh.mp hj).1
      exact ih (List.forall_mem_append.mpr ⟨hqueue, hfresh⟩)
        (List.forall_mem_append.mpr ⟨hseen, hfresh⟩)

end Walk

/-! ### Feasible edges -/

theorem mem_along {edges : List FlowEdge} {flow : Flow} :
    e ∈ along edges flow ↔ e ∈ edges ∧ e.label.kind = .within flow := by
  simp [along]

theorem mem_feasibleFrom_branch {f : Fact} {edges : List FlowEdge} {flow : Flow} {c : Binary}
    {t : Nat} (hflow : ∀ n, Value.evalBinary c.op (f.get c.lhs) (f.get c.rhs) = .constant n →
      flow = if n = 0 then .ifFalse else .ifTrue) (he : e ∈ edges)
    (hkind : e.label.kind = .within flow) : e ∈ feasibleFrom f edges (.branch c t) := by
  unfold feasibleFrom
  dsimp only
  cases heval : Value.evalBinary c.op (f.get c.lhs) (f.get c.rhs) with
  | undef | nac => exact he
  | constant n => exact mem_along.mpr ⟨he, hkind.trans (congrArg EdgeKind.within (hflow n heval))⟩

theorem mem_feasibleFrom_switch {f : Fact} {edges : List FlowEdge} {flow : Flow} {v : VarId}
    {cases : List (Int32 × Nat)} {t : Nat}
    (hcases : ∀ e ∈ edges, ∀ n, e.label.kind = .within (.switchCase n) → n ∈ cases.map (·.1))
    (hflow : ∀ n, f.get v = .constant n →
      flow = .switchCase n ∨ n ∉ cases.map (·.1) ∧ flow = .switchDefault) (he : e ∈ edges)
    (hkind : e.label.kind = .within flow) : e ∈ feasibleFrom f edges (.switch v cases t) := by
  unfold feasibleFrom
  dsimp only
  cases hv : f.get v with
  | undef | nac => exact he
  | constant n =>
    dsimp only
    rcases hflow n hv with rfl | ⟨hnone, rfl⟩
    · have hmem : e ∈ along edges (.switchCase n) := mem_along.mpr ⟨he, hkind⟩
      rw [if_neg]
      · exact hmem
      · intro hempty
        rw [List.isEmpty_iff.mp hempty] at hmem
        cases hmem
    · rw [if_pos]
      · exact mem_along.mpr ⟨he, hkind⟩
      · rw [List.isEmpty_iff, List.eq_nil_iff_forall_not_mem]
        intro e' he'
        obtain ⟨he', hkind'⟩ := mem_along.mp he'
        exact hnone (hcases e' he' n hkind')

theorem mem_of_mem_feasibleFrom {f : Fact} {edges : List FlowEdge} {s : Stmt}
    (he : e ∈ feasibleFrom f edges s) : e ∈ edges := by
  unfold feasibleFrom at he
  split at he
  · split at he
    · exact (mem_along.mp he).1
    · exact he
  · split at he
    · dsimp only at he
      split at he
      · exact (mem_along.mp he).1
      · exact (mem_along.mp he).1
    · exact he
  · exact he

theorem feasible_subset (h : e ∈ feasible p c constants n) : e ∈ c.graph.edges ∧ e.source = n := by
  have hedges : e ∈ c.graph.edgesFrom n := by
    unfold feasible at h
    dsimp only at h
    split at h
    · exact mem_of_mem_feasibleFrom h
    · exact h
  simpa [Graph.edgesFrom] using hedges

variable (p constants) in
/-- The walk reaches the entry, and what feasible edges lead to. -/
theorem reached_closed (m : MethodId) (b : Body) :
    Node.entry m ∈ reached p (Cfg.ofBody m b) constants ∧
      ∀ n ∈ reached p (Cfg.ofBody m b) constants,
        ∀ e ∈ feasible p (Cfg.ofBody m b) constants n,
          e.target ∈ reached p (Cfg.ofBody m b) constants := by
  have hnext : ∀ k ∈ (Cfg.ofBody m b).graph.nodes,
      ∀ j ∈ (feasible p (Cfg.ofBody m b) constants k).map (·.target),
        j ∈ (Cfg.ofBody m b).graph.nodes := by
    intro k _ j hj
    obtain ⟨e, he, rfl⟩ := List.mem_map.mp hj
    exact (Cfg.closed_ofBody m b e (feasible_subset he).1).2
  have hstart : Walking (fun n => (feasible p (Cfg.ofBody m b) constants n).map (·.target))
      (Cfg.ofBody m b).graph.nodes [.entry m] [.entry m] := by
    refine ⟨List.nodup_singleton _, fun k hk => ?_, fun k hk => hk, fun k hk => .inl hk⟩
    exact Cfg.mem_nodes.mpr (.inl (List.mem_singleton.mp hk))
  obtain ⟨hseen, hclosed⟩ := walk_closed hnext ((Cfg.ofBody m b).graph.nodes.length + 1) hstart
    (by simp)
  exact ⟨hseen _ List.mem_cons_self, fun n hn e he => hclosed n hn e.target (List.mem_map_of_mem he)⟩

/-! ### Dead statements -/

variable (p c constants) in
/-- Dead are the statements that are not reached, and assignments without effect. -/
theorem detect_returns (live : Liveness.Facts) : Traced.Returns (detect p c constants live)
    fun dead => ∀ i, i ∈ dead ↔ i < c.size ∧ (.stmt c.method i ∉ reached p c constants ∨
      deadAssignment p live (.stmt c.method i)) := by
  unfold detect
  simp only [Traced.returns_log_bind, Traced.returns_pure]
  intro i
  rw [List.mem_filter, List.mem_range, Bool.or_eq_true, Bool.not_eq_true', ← Bool.not_eq_true,
    List.contains_iff_mem]

end ProgramAnalysis.DeadCode
