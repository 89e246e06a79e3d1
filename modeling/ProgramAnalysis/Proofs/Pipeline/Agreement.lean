import ProgramAnalysis.Constant.Inter
import ProgramAnalysis.Proofs.Dataflow.Agreement
import ProgramAnalysis.Proofs.Dataflow.Congruence
import ProgramAnalysis.Proofs.DeadCode.Reached

/-! The analyses of methods, in programs that differ in bodies only: what they log and return is the
same for methods in `R`, whose bodies agree. They look at the statements at the nodes of their graph, at
parameters and returned variables of the methods of these nodes, and at the types of variables. -/
namespace ProgramAnalysis

variable {p p' : Program} {R : Set MethodId} {calls : CallGraph} {m : MethodId} {n : Node}
  {cfg : Cfg} {g : Icfg}

theorem Program.Agrees.holdsInt (h : p.Agrees R p') : p'.holdsInt = p.holdsInt := by
  funext v
  unfold Program.holdsInt Program.var?
  rw [h.vars]

theorem Program.Agrees.checkVars (h : p.Agrees R p') : p'.checkVars = p.checkVars := by
  funext vs
  unfold Program.checkVars
  simp only [h.getVar]

namespace Constant

theorem paramsOf_agrees (h : p.Agrees R p') (hm : m ∈ R) : paramsOf p' m = paramsOf p m := by
  have hbody : (p'.method? m).bind (·.body) = (p.method? m).bind (·.body) := h.body m hm
  unfold paramsOf
  rw [hbody]

theorem boundary_agrees (h : p.Agrees R p') (hn : n.method ∈ R) : boundary p' n = boundary p n := by
  unfold boundary
  rw [paramsOf_agrees h hn, h.holdsInt]

theorem transfer_agrees (h : p.Agrees R p') (hn : n.method ∈ R) : transfer p' n = transfer p n := by
  funext f
  unfold transfer transferStmt
  rw [h.stmtAt? hn, h.holdsInt]

theorem height_agrees (h : p.Agrees R p') : height p' = height p := by
  unfold height
  rw [h.vars]

theorem solveCfg_agrees (h : p.Agrees R p') (hm : cfg.method ∈ R) (hg : cfg.graph.Closed)
    (hR : ∀ n ∈ cfg.graph.nodes, n.method ∈ R) : solveCfg p' cfg = solveCfg p cfg := by
  have hanalysis : (analysis p).AgreesOn cfg.graph (analysis p') :=
    ⟨rfl, rfl, rfl, height_agrees h, fun n hn => boundary_agrees h (hR n hn),
      fun n hn => transfer_agrees h (hR n hn), fun _ _ => rfl⟩
  unfold solveCfg
  rw [h.checkVars, paramsOf_agrees h hm, Dataflow.solve_congr hanalysis hg]

/-! ### Constants across calls -/

theorem callAt?_agrees (h : p.Agrees R p') (hn : n.method ∈ R) : callAt? p' n = callAt? p n := by
  unfold callAt?
  rw [h.stmtAt? hn]

theorem returned_agrees (h : p.Agrees R p') (hm : m ∈ R) : returned p' m = returned p m := by
  have hbody : (p'.method? m).bind (·.body) = (p.method? m).bind (·.body) := h.body m hm
  funext f
  unfold returned
  rw [hbody]

/-- The edge joins methods in `R`, and so does its call. -/
structure EdgeWithin (R : Set MethodId) (e : FlowEdge) : Prop where
  source : e.source.method ∈ R
  target : e.target.method ∈ R
  site : ∀ n, e.label.site = some n → n.method ∈ R

theorem callOf?_agrees (h : p.Agrees R p') {e : FlowEdge} (he : EdgeWithin R e) :
    callOf? p' e = callOf? p e := by
  unfold callOf?
  cases hn : e.label.site with
  | none => rfl
  | some n => exact callAt?_agrees h (he.site n hn)

theorem bindings_agrees (h : p.Agrees R p') {e : FlowEdge} (he : EdgeWithin R e) :
    bindings p' e = bindings p e := by
  unfold bindings
  rw [callOf?_agrees h he, paramsOf_agrees h he.target]

theorem carryEdge_agrees (h : p.Agrees R p') {e : FlowEdge} (he : EdgeWithin R e) :
    carryEdge p' e = carryEdge p e := by
  funext f
  unfold carryEdge forgetResult bindArgs bindResult
  rw [callAt?_agrees h he.source, bindings_agrees h he, callOf?_agrees h he,
    returned_agrees h he.source, h.holdsInt]

theorem boundVars_agrees (h : p.Agrees R p') (hnodes : ∀ n ∈ g.graph.nodes, n.method ∈ R)
    (hedges : ∀ e ∈ g.graph.edges, EdgeWithin R e) : boundVars p' g = boundVars p g := by
  unfold boundVars
  congr 1
  · refine List.flatMap_congr fun e he => paramsOf_agrees h (hnodes _ ?_)
    exact List.contains_iff_mem.mp (List.mem_filter.mp he).2
  · refine List.flatMap_congr fun e he => ?_
    rw [bindings_agrees h (hedges e (List.mem_filter.mp he).1)]

theorem solveIcfg_agrees (h : p.Agrees R p') (hg : g.graph.Closed)
    (hnodes : ∀ n ∈ g.graph.nodes, n.method ∈ R)
    (hedges : ∀ e ∈ g.graph.edges, EdgeWithin R e) : solveIcfg p' g = solveIcfg p g := by
  have hanalysis : (interAnalysis p g).AgreesOn g.graph (interAnalysis p' g) := by
    refine ⟨rfl, rfl, rfl, height_agrees h, fun n hn => boundary_agrees h (hnodes n hn),
      fun n hn => ?_, fun e he => carryEdge_agrees h (hedges e he)⟩
    funext f
    simp only [interAnalysis, transfer_agrees h (hnodes n hn)]
  unfold solveIcfg
  rw [h.checkVars, boundVars_agrees h hnodes hedges, Dataflow.solve_congr hanalysis hg]

theorem edgeWithin_of_joins (hj : Icfg.Joins p calls g) (hcalls : calls.Closed)
    (hR : ∀ m ∈ calls.reachable, m ∈ R) {e : FlowEdge} (he : e ∈ g.graph.edges) :
    EdgeWithin R e := by
  obtain ⟨hsource, htarget⟩ := hj.closed hcalls e he
  exact ⟨hj.method_mem hR hsource, hj.method_mem hR htarget,
    fun n hn => hj.method_mem hR (hj.site_mem he hn)⟩

end Constant

/-! ### Live variables and dead code -/

theorem Liveness.solveCfg_agrees (h : p.Agrees R p') (hg : cfg.graph.Closed)
    (hR : ∀ n ∈ cfg.graph.nodes, n.method ∈ R) : solveCfg p' cfg = solveCfg p cfg := by
  have hanalysis : (analysis p).AgreesOn cfg.graph (analysis p') := by
    refine ⟨rfl, rfl, rfl, congrArg Array.size h.vars, fun _ _ => rfl, fun n hn => ?_,
      fun _ _ => rfl⟩
    funext live
    simp only [analysis, transfer, h.stmtAt? (hR n hn)]
  unfold solveCfg
  rw [Dataflow.solve_congr hanalysis hg]

namespace DeadCode

/-- No edge leaves a node outside the graph, so that the statement there does not matter. -/
theorem feasible_agrees (h : p.Agrees R p') (hg : cfg.graph.Closed)
    (hR : ∀ n ∈ cfg.graph.nodes, n.method ∈ R) (constants : Constant.Facts) (n : Node) :
    feasible p' cfg constants n = feasible p cfg constants n := by
  by_cases hn : n.method ∈ R
  · unfold feasible
    rw [h.stmtAt? hn]
  · have hedges : cfg.graph.edgesFrom n = [] := by
      refine List.filter_eq_nil_iff.mpr fun e he hsource => hn ?_
      rw [← of_decide_eq_true hsource]
      exact hR _ (hg e he).1
    have hnone : ∀ p, feasible p cfg constants n = [] := by
      intro p
      unfold feasible
      rw [hedges]
      dsimp only
      split
      · exact List.eq_nil_iff_forall_not_mem.mpr fun e he =>
          absurd (mem_of_mem_feasibleFrom he) List.not_mem_nil
      · rfl
    rw [hnone, hnone]

theorem detect_agrees (h : p.Agrees R p') (hg : cfg.graph.Closed) (hm : cfg.method ∈ R)
    (hR : ∀ n ∈ cfg.graph.nodes, n.method ∈ R) (constants : Constant.Facts)
    (live : Liveness.Facts) : detect p' cfg constants live = detect p cfg constants live := by
  have hreached : reached p' cfg constants = reached p cfg constants := by
    unfold reached
    simp only [feasible_agrees h hg hR]
  have hdead : ∀ i, deadAssignment p' live (.stmt cfg.method i) =
      deadAssignment p live (.stmt cfg.method i) := by
    intro i
    unfold deadAssignment
    rw [h.stmtAt? (show (Node.stmt cfg.method i).method ∈ R from hm)]
  unfold detect
  simp only [hreached, hdead]

end DeadCode
end ProgramAnalysis
