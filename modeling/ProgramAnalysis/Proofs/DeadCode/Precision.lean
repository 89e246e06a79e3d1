import ProgramAnalysis.Proofs.Constant.Precision
import ProgramAnalysis.Proofs.DeadCode.Preservation

/-! Dead code under refined constants. A constant decides the same way under both facts, and where the
coarser one knows no constant it leaves out no edge, so that under the finer one no more is reached. -/
namespace ProgramAnalysis.DeadCode

variable {p : Program} {m : MethodId} {b : Body} {f f' : Fact} {s : Stmt} {edges : List FlowEdge}
  {e : FlowEdge} {n : Node} {own facts : Constant.Facts} {live : Liveness.Facts} {dead : List Nat}

theorem feasibleFrom_refined (h : f.RefinedBy f') (he : e ∈ feasibleFrom f' edges s) :
    e ∈ feasibleFrom f edges s := by
  have hedges := mem_of_mem_feasibleFrom he
  cases s with
  | branch c t =>
    unfold feasibleFrom at he ⊢
    dsimp only at he ⊢
    cases heval : Value.evalBinary c.op (f.get c.lhs) (f.get c.rhs) with
    | undef | nac => exact hedges
    | constant k =>
      obtain ⟨i, j, hi, hj, -⟩ := exists_run_of_evalBinary heval
      rw [hi, hj] at heval
      rw [h.get_constant hi, h.get_constant hj, heval] at he
      exact he
  | switch v cases t =>
    unfold feasibleFrom at he ⊢
    dsimp only at he ⊢
    cases hv : f.get v with
    | undef | nac => exact hedges
    | constant k =>
      rw [h.get_constant hv] at he
      exact he
  | assign x e | store l y | invoke r c | goto t | ret y | nop => exact hedges

section Refined

variable (h : Constant.Refines (Cfg.ofBody m b).graph own facts)
include h

theorem feasible_refined (he : e ∈ feasible p (Cfg.ofBody m b) facts n) :
    e ∈ feasible p (Cfg.ofBody m b) own n := by
  obtain ⟨hmem, hsource⟩ := feasible_subset he
  have hn : n ∈ (Cfg.ofBody m b).graph.nodes := hsource ▸ (Cfg.closed_ofBody m b e hmem).1
  obtain ⟨f, f', hf, hf', hrefined⟩ := h.ins n hn
  unfold feasible at he ⊢
  rw [hf'] at he
  rw [hf]
  cases hs : p.stmtAt? n with
  | none =>
    rw [hs] at he
    exact he
  | some s =>
    rw [hs] at he
    exact feasibleFrom_refined hrefined he

theorem reached_refined (hn : n ∈ reached p (Cfg.ofBody m b) facts) :
    n ∈ reached p (Cfg.ofBody m b) own := by
  obtain ⟨hentry, hclosed⟩ := reached_closed p own m b
  have hstart : ∀ k ∈ [Node.entry m], k ∈ reached p (Cfg.ofBody m b) own :=
    List.forall_mem_singleton.mpr hentry
  refine walk_subset (fun k hk j hj => ?_) _ hstart hstart n hn
  obtain ⟨e, he, rfl⟩ := List.mem_map.mp hj
  exact hclosed k hk e (feasible_refined h he)

/-- What is dead under the coarser facts is dead under the finer ones. -/
theorem detect_refined (hdead : (detect p (Cfg.ofBody m b) own live).result = .ok dead) :
    ∃ dead', (detect p (Cfg.ofBody m b) facts live).result = .ok dead' ∧ dead ⊆ dead' := by
  obtain ⟨d, hok, hown⟩ := detect_returns p (Cfg.ofBody m b) own live
  obtain ⟨dead', hok', hfacts⟩ := detect_returns p (Cfg.ofBody m b) facts live
  cases hdead.symm.trans hok
  refine ⟨dead', hok', fun i hi => ?_⟩
  obtain ⟨hlt, hreason⟩ := (hown i).mp hi
  exact (hfacts i).mpr ⟨hlt, hreason.imp_left fun hnot hmem => hnot (reached_refined h hmem)⟩

end Refined

end ProgramAnalysis.DeadCode
