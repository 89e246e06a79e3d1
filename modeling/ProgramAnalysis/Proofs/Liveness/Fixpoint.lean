import ProgramAnalysis.Liveness
import ProgramAnalysis.Proofs.Dataflow.Cfg
import ProgramAnalysis.Proofs.Traced

/-! Liveness over the graph of a body ends in a fixed solution: what is live after a statement holds
all that is live before the next one, and so all that some path reads before it defines it. -/
namespace ProgramAnalysis.Liveness

variable {p : Program} {m : MethodId} {b : Body} {s : Stmt} {live : VarSet} {v : VarId}

theorem mem_before : v ∈ before s live ↔ v ∈ live ∧ s.def? ≠ some v ∨ v ∈ s.uses := by
  unfold before
  rw [HandleSet.mem_union, HandleSet.mem_ofList]
  cases hdef : s.def? with
  | none => simp
  | some x => simp [eq_comm]

/-- The variables exist. -/
def Within (p : Program) (live : VarSet) : Prop := ∀ v ∈ live, v.index < p.vars.size

theorem within_transfer (hp : p.Accepted) (n : Node) (hlive : Within p live) :
    Within p (transfer p n live) := by
  unfold transfer
  split
  · next s hs =>
    intro v hv
    rcases mem_before.mp hv with ⟨hv, _⟩ | hv
    · exact hlive v hv
    · exact hp.lt_of_stmtAt? hs (.inr hv)
  · exact hlive

theorem le_iff {x y : VarSet} : (analysis p).Le x y ↔ ∀ v ∈ x, v ∈ y := by
  constructor
  · intro h v hv
    change y.union x = y at h
    rw [← h]
    exact HandleSet.mem_union.mpr (.inr hv)
  · intro h
    refine HandleSet.ext fun v => ?_
    change v ∈ y.union x ↔ v ∈ y
    rw [HandleSet.mem_union]
    exact or_iff_left_of_imp (h v)

theorem laws (hp : p.Accepted) (m : MethodId) (b : Body) :
    Dataflow.Laws (Cfg.ofBody m b).graph (analysis p) (Within p) HandleSet.size where
  meet_self x := HandleSet.ext fun v => by simp [analysis]
  meet_comm x y := HandleSet.ext fun v => by simp [analysis, or_comm]
  meet_assoc x y z := HandleSet.ext fun v => by simp [analysis, or_assoc, or_comm]
  initial_meet x := HandleSet.ext fun v => by simp [analysis]
  transfer_boundary := by
    intro n hn live
    rw [List.mem_singleton.mp hn]
    rfl
  ok_initial v hv := absurd hv (HandleSet.not_mem_empty v)
  ok_boundary n v hv := absurd hv (HandleSet.not_mem_empty v)
  ok_meet x y hx hy v hv := (HandleSet.mem_union.mp hv).elim (hy v) (hx v)
  ok_transfer n _ hx := within_transfer hp n hx
  ok_carry _ _ hx := hx
  rank_lt := by
    intro x y _ _ hle hne
    exact HandleSet.size_lt (le_iff.mp hle) hne
  rank_le x hx := HandleSet.size_le hx

/-- What is live before and after each statement. -/
structure Covers (b : Body) (m : MethodId) (facts : Facts) : Prop where
  entry : ∃ out, facts.outs.get? (.entry m) = some out ∧ facts.ins.get? (.entry m) = some out
  stmt : ∀ {i s}, b.stmt? i = some s → ∃ out, facts.outs.get? (.stmt m i) = some out ∧
    facts.ins.get? (.stmt m i) = some (before s out)
  edge : ∀ {e}, e ∈ (Cfg.ofBody m b).graph.edges → ∃ out next,
    facts.outs.get? e.source = some out ∧ facts.ins.get? e.target = some next ∧ ∀ v ∈ next, v ∈ out

/-- The analysis does not fail. -/
theorem solveCfg_covers (hp : p.Accepted) (hb : p.body? m = some b) :
    Traced.Returns (solveCfg p (Cfg.ofBody m b)) (Covers b m) := by
  unfold solveCfg
  rw [Traced.returns_log_bind, Traced.returns_pure]
  have hfixed : Dataflow.Fixed (Cfg.ofBody m b).graph (analysis p) (Within p) _ _ :=
    Dataflow.solve_fixed (laws hp m b) (Cfg.closed_ofBody m b)
  refine ⟨?_, fun {i s} hs => ?_, fun {e} he => ?_⟩
  · obtain ⟨out, hout, _, _, hin⟩ := hfixed.defined (.entry m) (Cfg.mem_nodes.mpr (.inl rfl))
    exact ⟨out, hout, hin⟩
  · have hnode : Node.stmt m i ∈ (Cfg.ofBody m b).graph.nodes :=
      Cfg.mem_nodes.mpr (.inr (.inr ⟨i, Body.lt_of_stmt? hs, rfl⟩))
    obtain ⟨out, hout, _, _, hin⟩ := hfixed.defined _ hnode
    have hat : p.stmtAt? (.stmt m i) = some s := by
      rw [Program.stmtAt?_stmt, hb]
      exact hs
    refine ⟨out, hout, ?_⟩
    rw [hin]
    show some (transfer p _ out) = _
    unfold transfer
    rw [hat]
  · obtain ⟨hsource, htarget⟩ := Cfg.closed_ofBody m b e he
    obtain ⟨out, hout, _, _, _⟩ := hfixed.defined _ hsource
    obtain ⟨_, _, _, _, hin⟩ := hfixed.defined _ htarget
    have hboundary : e.source ∉ Dataflow.boundaryNodes (Cfg.ofBody m b).graph (analysis p) := by
      intro h
      exact Cfg.source_ne_exit he (List.mem_singleton.mp h)
    have hle := hfixed.fed e he (.inl hboundary) _ _ hin hout
    refine ⟨out, _, hout, hin, fun v hv => ?_⟩
    rw [← hle]
    exact HandleSet.mem_union.mpr (.inr hv)

/-! ### Paths -/

/-- Some path from the node reads the variable, and no statement before that defines it. -/
inductive Live (m : MethodId) (b : Body) (v : VarId) : Node → Prop
  | read {i : Nat} {s : Stmt} : b.stmt? i = some s → v ∈ s.uses → Live m b v (.stmt m i)
  | pass {i : Nat} {s : Stmt} {e : FlowEdge} : b.stmt? i = some s → s.def? ≠ some v →
      e ∈ (Cfg.ofBody m b).graph.edges → e.source = .stmt m i → Live m b v e.target →
      Live m b v (.stmt m i)

/-- Live behind the statement, on some edge out of it. -/
def LiveAfter (m : MethodId) (b : Body) (i : Nat) (v : VarId) : Prop :=
  ∃ e ∈ (Cfg.ofBody m b).graph.edges, e.source = .stmt m i ∧ Live m b v e.target

variable {facts : Facts} {n : Node} {i : Nat} {live : VarSet}

theorem Covers.mem_of_live (hc : Covers b m facts) (h : Live m b v n) :
    ∀ live, facts.ins.get? n = some live → v ∈ live := by
  induction h with
  | read hs hv =>
    intro live hlive
    obtain ⟨out, _, hin⟩ := hc.stmt hs
    rw [hin] at hlive
    cases hlive
    exact mem_before.mpr (.inr hv)
  | pass hs hdef he hsource _ ih =>
    intro live hlive
    obtain ⟨out, hout, hin⟩ := hc.stmt hs
    rw [hin] at hlive
    cases hlive
    obtain ⟨out', next, hout', hnext, hsub⟩ := hc.edge he
    rw [hsource, hout] at hout'
    cases hout'
    exact mem_before.mpr (.inl ⟨hsub v (ih next hnext), hdef⟩)

theorem Covers.mem_of_liveAfter (hc : Covers b m facts) (h : LiveAfter m b i v)
    (hout : facts.outs.get? (.stmt m i) = some live) : v ∈ live := by
  obtain ⟨e, he, hsource, htarget⟩ := h
  obtain ⟨out, next, hout', hnext, hsub⟩ := hc.edge he
  rw [hsource, hout] at hout'
  cases hout'
  exact hsub v (hc.mem_of_live htarget next hnext)

end ProgramAnalysis.Liveness
