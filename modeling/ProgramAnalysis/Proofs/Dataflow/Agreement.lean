import ProgramAnalysis.Proofs.Dataflow.Icfg
import ProgramAnalysis.Proofs.Program.Agreement

/-! Control-flow graphs of two programs that differ in bodies only. They are the same for methods in `R`,
whose bodies agree, and so is the graph that joins them, if all callees are in `R` as well. -/
namespace ProgramAnalysis

variable {p p' : Program} {R : Set MethodId} {calls : CallGraph} {m : MethodId} {n : Node}
  {site : StmtRef} {ms : List MethodId} {g : Icfg}

theorem Program.stmtAt?_eq (p : Program) (n : Node) :
    p.stmtAt? n = n.stmtIndex?.bind fun i => (p.body? n.method).bind (·.stmt? i) := by
  unfold Program.stmtAt? Program.body?
  cases n.stmtIndex? with
  | none => rfl
  | some i => cases p.method? n.method <;> rfl

theorem Program.Agrees.stmtAt? (h : p.Agrees R p') (hn : n.method ∈ R) :
    p'.stmtAt? n = p.stmtAt? n := by
  rw [p'.stmtAt?_eq, p.stmtAt?_eq, h.body _ hn]

theorem Program.Agrees.getCallSites (h : p.Agrees R p') (hm : m ∈ R) :
    p'.getCallSites m = p.getCallSites m := by
  unfold Program.getCallSites
  rw [h.getBody hm]

theorem Cfg.build_agrees (hdecls : p'.withoutBodies = p.withoutBodies) (h : p.Agrees R p')
    (hm : m ∈ R) : Cfg.build p' m = Cfg.build p m := by
  unfold Cfg.build Program.requireBody
  rw [h.getBody hm, Program.getSignature_of_withoutBodies hdecls]

theorem Cfg.method_mem {b : Body} (hm : m ∈ R) : ∀ n ∈ (Cfg.ofBody m b).graph.nodes, n.method ∈ R := by
  intro n hn
  rwa [method_of_mem_nodes hn]

namespace Icfg

theorem withBody_agrees (h : p.Agrees R p') (hms : ∀ m ∈ ms, m ∈ R) :
    withBody p' ms = withBody p ms :=
  filterM_congr fun m hm => by rw [h.getBody (hms m hm)]

theorem linkMethod_agrees (h : p.Agrees R p') (hcalls : calls.Closed)
    (hR : ∀ m ∈ calls.reachable, m ∈ R) (hm : m ∈ R) :
    linkMethod p' calls m = linkMethod p calls m := by
  have hsite : linkSite p' calls = linkSite p calls := by
    funext site
    unfold linkSite
    rw [withBody_agrees h fun c hc => hR c (hcalls.mem_callees hc)]
  unfold linkMethod
  rw [h.getCallSites hm, hsite]

theorem join_agrees (hdecls : p'.withoutBodies = p.withoutBodies) (h : p.Agrees R p')
    (hcalls : calls.Closed) (hR : ∀ m ∈ calls.reachable, m ∈ R) : join p' calls = join p calls := by
  unfold join
  rw [withBody_agrees h fun m hm => hR m (Array.mem_toList_iff.mp hm)]
  refine bind_congr_of_ok fun methods hmethods => ?_
  have hmem : ∀ m ∈ methods, m ∈ R := fun m hm =>
    hR m (Array.mem_toList_iff.mp ((mem_withBody hmethods).mp hm).1)
  rw [mapM_congr fun m hm => linkMethod_agrees h hcalls hR (hmem m hm),
    mapM_congr fun m hm => Cfg.build_agrees hdecls h (hmem m hm)]

theorem build_agrees (hdecls : p'.withoutBodies = p.withoutBodies) (h : p.Agrees R p')
    (hcalls : calls.Closed) (hR : ∀ m ∈ calls.reachable, m ∈ R) :
    build p' calls = build p calls := by
  unfold build
  rw [join_agrees hdecls h hcalls hR]

theorem Joins.method_mem (hj : Joins p calls g) (hR : ∀ m ∈ calls.reachable, m ∈ R)
    (hn : n ∈ g.graph.nodes) : n.method ∈ R := by
  obtain ⟨m, b, hm, hn⟩ := (hj.nodes n).mp hn
  rw [Cfg.method_of_mem_nodes hn]
  exact hR m hm.1

/-- The call that an edge belongs to is a node. -/
theorem Joins.site_mem (hj : Joins p calls g) {e : FlowEdge} (he : e ∈ g.graph.edges)
    (hn : e.label.site = some n) : n ∈ g.graph.nodes := by
  have hsource : ∀ {m b e'}, Includes p calls m b → e' ∈ (Cfg.ofBody m b).graph.edges →
      e'.source ∈ g.graph.nodes := fun hm he' =>
    (hj.nodes _).mpr ⟨_, _, hm, (Cfg.closed_ofBody _ _ _ he').1⟩
  cases hj.mem_edges.mp he with
  | enter hl _ =>
    cases hn
    exact hj.linked_mem hl
  | within _ he' _ => cases (Cfg.site_of_mem_edges he').symm.trans hn
  | past hm he' _ | leave hm he' _ _ =>
    cases hn
    exact hsource hm he'

end Icfg
end ProgramAnalysis
