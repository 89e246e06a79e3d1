import ProgramAnalysis.Dataflow.Icfg
import ProgramAnalysis.Proofs.CallGraph.Closed
import ProgramAnalysis.Proofs.Dataflow.Cfg

/-! The graph over all reachable methods: which calls are linked, where its edges come from, and that
these join nodes of the graph. -/
namespace ProgramAnalysis

namespace Icfg

variable {p : Program} {calls : CallGraph} {g : Icfg} {ms found : List MethodId} {m c : MethodId}
  {b : Body} {site : StmtRef} {linked : List (Node × List MethodId)} {n : Node} {e : FlowEdge}

/-! ### Linked calls -/

theorem mem_withBody (h : withBody p ms = .ok found) :
    m ∈ found ↔ m ∈ ms ∧ ∃ b, p.body? m = some b := by
  unfold withBody at h
  rw [mem_filterM h]
  refine and_congr_right fun _ => ⟨fun hm => ?_, fun ⟨b, hb⟩ => ?_⟩
  · obtain ⟨body, hbody, hsome⟩ := bind_ok_iff.mp hm
    rw [(Program.getBody_ok_iff.mp hbody).2]
    exact Option.isSome_iff_exists.mp (Except.ok.inj hsome)
  · rw [Program.getBody_eq (Program.lt_of_body? hb), hb]
    rfl

/-- The method is reachable, and has the body. -/
def Includes (p : Program) (calls : CallGraph) (m : MethodId) (b : Body) : Prop :=
  m ∈ calls.reachable ∧ p.body? m = some b

/-- The call of a reachable method with the callees that have bodies, of which there are some. -/
def Links (p : Program) (calls : CallGraph) (l : Node × List MethodId) : Prop :=
  ∃ site b result call, l.1 = .ofStmtRef site ∧ Includes p calls site.method b ∧
    b.stmt? site.index = some (.invoke result call) ∧ l.2 ≠ [] ∧
    withBody p (calls.callees site) = .ok l.2

theorem mem_callSites {sites : List StmtRef} (hb : p.body? m = some b)
    (h : p.getCallSites m = .ok sites) :
    site ∈ sites ↔ site.method = m ∧
      ∃ result call, b.stmt? site.index = some (.invoke result call) := by
  unfold Program.getCallSites at h
  rw [Program.getBody_eq (Program.lt_of_body? hb), hb] at h
  cases h
  obtain ⟨k, i⟩ := site
  simp only [Option.map_some, Option.getD_some, List.mem_map, Body.callSites]
  constructor
  · rintro ⟨j, ⟨⟨j', result, call⟩, hcall, rfl⟩, heq⟩
    cases heq
    exact ⟨rfl, result, call, ClassHierarchy.mem_calls.mp hcall⟩
  · rintro ⟨rfl, result, call, hs⟩
    exact ⟨i, ⟨⟨i, result, call⟩, ClassHierarchy.mem_calls.mpr hs, rfl⟩, rfl⟩

theorem mem_linkSite {ls : List (Node × List MethodId)} {l : Node × List MethodId}
    (h : linkSite p calls site = .ok ls) : l ∈ ls ↔ l.1 = .ofStmtRef site ∧ l.2 ≠ [] ∧
      withBody p (calls.callees site) = .ok l.2 := by
  obtain ⟨found, hfound, h⟩ := bind_ok_iff.mp h
  cases h
  rw [hfound]
  cases found with
  | nil => exact ⟨nofun, fun ⟨_, hne, heq⟩ => absurd (Except.ok.inj heq).symm hne⟩
  | cons c found =>
    rw [List.isEmpty_cons, if_neg Bool.false_ne_true, List.mem_singleton]
    refine ⟨?_, fun ⟨hn, _, heq⟩ => Prod.ext hn (Except.ok.inj heq).symm⟩
    rintro rfl
    exact ⟨rfl, List.cons_ne_nil c found, rfl⟩

theorem mem_linkMethod {ls : List (Node × List MethodId)} {l : Node × List MethodId}
    (hm : Includes p calls m b) (h : linkMethod p calls m = .ok ls) :
    l ∈ ls ↔ Links p calls l ∧ l.1.method = m := by
  obtain ⟨sites, hsites, h⟩ := bind_ok_iff.mp h
  obtain ⟨lists, hlists, h⟩ := bind_ok_iff.mp h
  cases h
  obtain ⟨hall, hfrom⟩ := mapM_ok hlists
  rw [List.mem_flatten]
  constructor
  · rintro ⟨ls, hls, hl⟩
    obtain ⟨site, hsite, hlink⟩ := hfrom ls hls
    obtain ⟨hn, hne, hfound⟩ := (mem_linkSite hlink).mp hl
    obtain ⟨rfl, result, call, hs⟩ := (mem_callSites hm.2 hsites).mp hsite
    exact ⟨⟨site, b, result, call, hn, hm, hs, hne, hfound⟩, by rw [hn]; rfl⟩
  · rintro ⟨⟨site, b', result, call, hn, hm', hs, hne, hfound⟩, hmethod⟩
    have hsite : site.method = m := by
      rw [hn] at hmethod
      exact hmethod
    subst hsite
    cases hm.2.symm.trans hm'.2
    obtain ⟨ls, hls, hlink⟩ := hall site ((mem_callSites hm.2 hsites).mpr ⟨rfl, result, call, hs⟩)
    exact ⟨ls, hls, (mem_linkSite hlink).mpr ⟨hn, hne, hfound⟩⟩

/-! ### The graph -/

/-- From the call `c` past its callees to `r`, where control goes on. -/
def past (c r : Node) : FlowEdge := ⟨c, r, ⟨.callToReturn, some c⟩⟩

def enter (c : Node) (k : MethodId) : FlowEdge := ⟨c, .entry k, ⟨.call, some c⟩⟩

def leave (c r : Node) (k : MethodId) : FlowEdge := ⟨.exit k, r, ⟨.ret, some c⟩⟩

/-- Where the parts of the graph come from. -/
structure Joins (p : Program) (calls : CallGraph) (g : Icfg) : Prop where
  resolved : ∀ {m b i result call}, Includes p calls m b → b.stmt? i = some (.invoke result call) →
    ∃ found, withBody p (calls.callees ⟨m, i⟩) = .ok found
  linked : ∀ l, l ∈ g.linked ↔ Links p calls l
  nodes : ∀ n, n ∈ g.graph.nodes ↔
    ∃ m b, Includes p calls m b ∧ n ∈ (Cfg.ofBody m b).graph.nodes
  edges : ∀ e, e ∈ g.graph.edges ↔ (∃ l ∈ g.linked, e ∈ callEdges l) ∨
    ∃ m b, Includes p calls m b ∧ ∃ e' ∈ (Cfg.ofBody m b).graph.edges,
      e = passEdge g.linked e' ∨ e ∈ returnEdges g.linked e'
  ends : g.graph.ends = calls.entries.map fun m => (.entry m, .exit m)

theorem build_joins (h : (build p calls).result = .ok g) : Joins p calls g := by
  have hjoin : ∃ methods, join p calls = .ok (methods, g) := by
    unfold build at h
    rw [Traced.result_bind, Traced.result_lift] at h
    obtain ⟨⟨methods, g'⟩, hjoin, h⟩ := bind_ok_iff.mp h
    cases h
    exact ⟨methods, hjoin⟩
  obtain ⟨methods, hjoin⟩ := hjoin
  obtain ⟨included, hincluded, h⟩ := bind_ok_iff.mp hjoin
  obtain ⟨lists, hlists, h⟩ := bind_ok_iff.mp h
  obtain ⟨cfgs, hcfgs, h⟩ := bind_ok_iff.mp h
  cases h
  have hmem : ∀ m, m ∈ methods ↔ ∃ b, Includes p calls m b := fun m => by
    rw [mem_withBody hincluded, Array.mem_toList_iff]
    exact exists_and_left.symm
  have hcfg : ∀ c, c ∈ cfgs ↔ ∃ m b, Includes p calls m b ∧ c = Cfg.ofBody m b := by
    obtain ⟨hall, hfrom⟩ := mapM_ok hcfgs
    refine fun c => ⟨fun hc => ?_, fun ⟨m, b, hm, hc⟩ => ?_⟩
    · obtain ⟨m, hm, hbuild⟩ := hfrom c hc
      obtain ⟨b, hm⟩ := (hmem m).mp hm
      exact ⟨m, b, hm, Except.ok.inj (hbuild.symm.trans (Cfg.build_eq hm.2))⟩
    · obtain ⟨c', hc', hbuild⟩ := hall m ((hmem m).mpr ⟨b, hm⟩)
      rw [hc, ← Except.ok.inj (hbuild.symm.trans (Cfg.build_eq hm.2))]
      exact hc'
  obtain ⟨hall, hfrom⟩ := mapM_ok hlists
  refine ⟨fun {m b i result call} hm hs => ?_, fun l => ?_, fun n => ?_, fun e => ?_, rfl⟩
  · obtain ⟨ls, _, hlink⟩ := hall m ((hmem m).mpr ⟨b, hm⟩)
    obtain ⟨sites, hsites, h⟩ := bind_ok_iff.mp hlink
    obtain ⟨_, hlists, _⟩ := bind_ok_iff.mp h
    obtain ⟨_, _, hsite⟩ := (mapM_ok hlists).1 ⟨m, i⟩
      ((mem_callSites hm.2 hsites).mpr ⟨rfl, result, call, hs⟩)
    obtain ⟨found, hfound, _⟩ := bind_ok_iff.mp hsite
    exact ⟨found, hfound⟩
  · show l ∈ lists.flatten ↔ _
    rw [List.mem_flatten]
    constructor
    · rintro ⟨ls, hls, hl⟩
      obtain ⟨m, hm, hlink⟩ := hfrom ls hls
      obtain ⟨b, hm⟩ := (hmem m).mp hm
      exact ((mem_linkMethod hm hlink).mp hl).1
    · intro hl
      obtain ⟨site, b, _, _, hn, hm, _⟩ := id hl
      obtain ⟨ls, hls, hlink⟩ := hall site.method ((hmem _).mpr ⟨b, hm⟩)
      exact ⟨ls, hls, (mem_linkMethod hm hlink).mpr ⟨hl, by rw [hn]; rfl⟩⟩
  · show n ∈ cfgs.flatMap (·.graph.nodes) ↔ _
    rw [List.mem_flatMap]
    constructor
    · rintro ⟨c, hc, hn⟩
      obtain ⟨m, b, hm, rfl⟩ := (hcfg c).mp hc
      exact ⟨m, b, hm, hn⟩
    · rintro ⟨m, b, hm, hn⟩
      exact ⟨_, (hcfg _).mpr ⟨m, b, hm, rfl⟩, hn⟩
  · simp only [assemble, List.mem_append, List.mem_flatMap, List.mem_map, List.mem_mergeSort, hcfg]
    constructor
    · rintro ((⟨c, ⟨m, b, hm, rfl⟩, e', he', rfl⟩ | hcall) | ⟨c, ⟨m, b, hm, rfl⟩, e', he', he⟩)
      · exact .inr ⟨m, b, hm, e', he', .inl rfl⟩
      · exact .inl hcall
      · exact .inr ⟨m, b, hm, e', he', .inr he⟩
    · rintro (hcall | ⟨m, b, hm, e', he', rfl | he⟩)
      · exact .inl (.inr hcall)
      · exact .inl (.inl ⟨_, ⟨m, b, hm, rfl⟩, e', he', rfl⟩)
      · exact .inr ⟨_, ⟨m, b, hm, rfl⟩, e', he', he⟩

theorem mem_of_lookup (h : linked.lookup n = some found) : (n, found) ∈ linked := by
  obtain ⟨before, after, heq, _⟩ := List.lookup_eq_some_iff.mp h
  rw [heq]
  simp

theorem isLinked_eq (g : Icfg) (n : Node) : g.isLinked n = (g.linked.lookup n).isSome := by
  unfold isLinked
  induction g.linked with
  | nil => rfl
  | cons l ls ih =>
    obtain ⟨k, cs⟩ := l
    rw [List.any_cons, ih, List.lookup_cons]
    by_cases h : n = k
    · simp [h]
    · rw [beq_false_of_ne h, beq_false_of_ne (Ne.symm h), Bool.false_or]

/-- Only calls are linked. -/
theorem Joins.stmtAt?_of_lookup (hj : Joins p calls g) (h : g.linked.lookup n = some found) :
    ∃ result call, p.stmtAt? n = some (.invoke result call) := by
  obtain ⟨site, b, result, call, hn, hm, hs, -⟩ := (hj.linked _).mp (mem_of_lookup h)
  have hn : n = .stmt site.method site.index := hn
  refine ⟨result, call, ?_⟩
  rw [hn, Program.stmtAt?_stmt, hm.2]
  exact hs

/-- A call is linked to the callees that have bodies, if there are any. -/
theorem Joins.lookup_eq (hj : Joins p calls g) {i : Nat} {result : Option VarId} {call : Call}
    (hm : Includes p calls m b) (hs : b.stmt? i = some (.invoke result call))
    (hfound : withBody p (calls.callees ⟨m, i⟩) = .ok found) :
    g.linked.lookup (.stmt m i) = if found = [] then none else some found := by
  cases hlookup : g.linked.lookup (.stmt m i) with
  | none =>
    rw [if_pos]
    by_contra hne
    have hmem := (hj.linked (.stmt m i, found)).mpr ⟨⟨m, i⟩, b, result, call, rfl, hm, hs, hne, hfound⟩
    simpa using List.lookup_eq_none_iff.mp hlookup _ hmem
  | some found' =>
    obtain ⟨⟨k, j⟩, _, _, _, hn, _, _, hne, hfound'⟩ := (hj.linked _).mp (mem_of_lookup hlookup)
    cases hn
    cases hfound.symm.trans hfound'
    rw [if_neg hne]

/-- How an edge of the graph arises. -/
inductive Arises (p : Program) (calls : CallGraph) (g : Icfg) : FlowEdge → Prop
  | enter {l : Node × List MethodId} {c : MethodId} : l ∈ g.linked → c ∈ l.2 →
      Arises p calls g (enter l.1 c)
  | within {m : MethodId} {b : Body} {e : FlowEdge} : Includes p calls m b →
      e ∈ (Cfg.ofBody m b).graph.edges → g.linked.lookup e.source = none → Arises p calls g e
  | past {m : MethodId} {b : Body} {e : FlowEdge} {found : List MethodId} : Includes p calls m b →
      e ∈ (Cfg.ofBody m b).graph.edges → g.linked.lookup e.source = some found →
      Arises p calls g (past e.source e.target)
  | leave {m c : MethodId} {b : Body} {e : FlowEdge} {found : List MethodId} :
      Includes p calls m b → e ∈ (Cfg.ofBody m b).graph.edges →
      g.linked.lookup e.source = some found → c ∈ found →
      Arises p calls g (leave e.source e.target c)

theorem passEdge_of_none (h : linked.lookup e.source = none) : passEdge linked e = e := by
  unfold passEdge
  rw [h]

theorem passEdge_of_some (h : linked.lookup e.source = some found) :
    passEdge linked e = past e.source e.target := by
  unfold passEdge
  rw [h]
  rfl

theorem mem_returnEdges {e' : FlowEdge} : e' ∈ returnEdges linked e ↔
    ∃ found, linked.lookup e.source = some found ∧ ∃ c ∈ found, e' = leave e.source e.target c := by
  unfold returnEdges
  cases linked.lookup e.source with
  | none => simp
  | some found =>
    simp only [Option.getD_some, List.mem_map, Option.some.injEq, exists_eq_left']
    exact ⟨fun ⟨c, hc, he⟩ => ⟨c, hc, he.symm⟩, fun ⟨c, hc, he⟩ => ⟨c, hc, he.symm⟩⟩

theorem Joins.mem_edges (hj : Joins p calls g) : e ∈ g.graph.edges ↔ Arises p calls g e := by
  rw [hj.edges]
  constructor
  · rintro (⟨l, hl, he⟩ | ⟨m, b, hm, e', he', rfl | he⟩)
    · obtain ⟨c, hc, rfl⟩ := List.mem_map.mp he
      exact .enter hl hc
    · cases hlookup : g.linked.lookup e'.source with
      | none =>
        rw [passEdge_of_none hlookup]
        exact .within hm he' hlookup
      | some found =>
        rw [passEdge_of_some hlookup]
        exact .past hm he' hlookup
    · obtain ⟨found, hlookup, c, hc, rfl⟩ := mem_returnEdges.mp he
      exact .leave hm he' hlookup hc
  · intro h
    cases h with
    | enter hl hc => exact .inl ⟨_, hl, List.mem_map_of_mem hc⟩
    | within hm he hlookup =>
      exact .inr ⟨_, _, hm, _, he, .inl (passEdge_of_none hlookup).symm⟩
    | past hm he hlookup => exact .inr ⟨_, _, hm, _, he, .inl (passEdge_of_some hlookup).symm⟩
    | leave hm he hlookup hc =>
      exact .inr ⟨_, _, hm, _, he, .inr (mem_returnEdges.mpr ⟨_, hlookup, _, hc, rfl⟩)⟩

/-- A call that is linked is a node. -/
theorem Joins.linked_mem (hj : Joins p calls g) {l : Node × List MethodId} (hl : l ∈ g.linked) :
    l.1 ∈ g.graph.nodes := by
  obtain ⟨site, b, _, _, hn, hm, hs, _⟩ := (hj.linked l).mp hl
  rw [hj.nodes, hn]
  exact ⟨_, b, hm, Cfg.mem_nodes.mpr (.inr (.inr ⟨site.index, Body.lt_of_stmt? hs, rfl⟩))⟩

theorem Joins.closed (hj : Joins p calls g) (hcalls : calls.Closed) : g.graph.Closed := by
  have hcallee : ∀ {l c}, l ∈ g.linked → c ∈ l.2 → ∃ b, Includes p calls c b := by
    intro l c hl hc
    obtain ⟨site, _, _, _, _, _, _, _, hfound⟩ := (hj.linked l).mp hl
    obtain ⟨hcallees, b, hb⟩ := (mem_withBody hfound).mp hc
    exact ⟨b, hcalls.mem_callees hcallees, hb⟩
  intro e he
  cases hj.mem_edges.mp he with
  | enter hl hc =>
    obtain ⟨b, hc⟩ := hcallee hl hc
    exact ⟨hj.linked_mem hl, (hj.nodes _).mpr ⟨_, b, hc, Cfg.mem_nodes.mpr (.inl rfl)⟩⟩
  | within hm he' _ | past hm he' _ =>
    obtain ⟨hsource, htarget⟩ := Cfg.closed_ofBody _ _ _ he'
    exact ⟨(hj.nodes _).mpr ⟨_, _, hm, hsource⟩, (hj.nodes _).mpr ⟨_, _, hm, htarget⟩⟩
  | leave hm he' hlookup hc =>
    obtain ⟨b, hc⟩ := hcallee (mem_of_lookup hlookup) hc
    obtain ⟨-, htarget⟩ := Cfg.closed_ofBody _ _ _ he'
    exact ⟨(hj.nodes _).mpr ⟨_, b, hc, Cfg.mem_nodes.mpr (.inr (.inl rfl))⟩,
      (hj.nodes _).mpr ⟨_, _, hm, htarget⟩⟩

/-! ### The graph exists -/

theorem withBody_total (h : ∀ m ∈ ms, m.index < p.methods.size) :
    ∃ found, withBody p ms = .ok found :=
  filterM_total fun m hm => ⟨_, bind_ok_iff.mpr ⟨_, Program.getBody_eq (h m hm), rfl⟩⟩

theorem linkMethod_total (hcalls : CallGraph.Found p calls) (hb : p.body? m = some b) :
    ∃ ls, linkMethod p calls m = .ok ls := by
  have hsites : p.getCallSites m = .ok (b.callSites.map (StmtRef.mk m)) := by
    unfold Program.getCallSites
    rw [Program.getBody_eq (Program.lt_of_body? hb), hb]
    rfl
  have hlink : ∀ site, ∃ ls, linkSite p calls site = .ok ls := fun site => by
    have hlt : ∀ c ∈ calls.callees site, c.index < p.methods.size := fun c hc =>
      hcalls.lt (hcalls.closed.mem_callees hc)
    obtain ⟨found, hfound⟩ := withBody_total hlt
    exact ⟨_, bind_ok_iff.mpr ⟨found, hfound, rfl⟩⟩
  obtain ⟨lists, hlists⟩ := mapM_total fun site (_ : site ∈ b.callSites.map _) => hlink site
  exact ⟨_, bind_ok_iff.mpr ⟨_, hsites, bind_ok_iff.mpr ⟨lists, hlists, rfl⟩⟩⟩

/-- The graph can be built over every call graph that a search finds. -/
theorem build_total (hcalls : CallGraph.Found p calls) : ∃ g, (build p calls).result = .ok g := by
  have hlt : ∀ m ∈ calls.reachable.toList, m.index < p.methods.size := fun m hm =>
    hcalls.lt (Array.mem_toList_iff.mp hm)
  obtain ⟨methods, hmethods⟩ := withBody_total hlt
  have hlink : ∀ m ∈ methods, ∃ ls, linkMethod p calls m = .ok ls := fun m hm => by
    obtain ⟨_, b, hb⟩ := (mem_withBody hmethods).mp hm
    exact linkMethod_total hcalls hb
  have hcfg : ∀ m ∈ methods, ∃ c, Cfg.build p m = .ok c := fun m hm => by
    obtain ⟨_, b, hb⟩ := (mem_withBody hmethods).mp hm
    exact ⟨_, Cfg.build_eq hb⟩
  obtain ⟨lists, hlists⟩ := mapM_total hlink
  obtain ⟨cfgs, hcfgs⟩ := mapM_total hcfg
  have hjoin : join p calls = .ok (methods, assemble calls.entries cfgs lists.flatten) :=
    bind_ok_iff.mpr ⟨_, hmethods, bind_ok_iff.mpr ⟨_, hlists, bind_ok_iff.mpr ⟨_, hcfgs, rfl⟩⟩⟩
  exact ⟨_, Traced.bind_ok_iff.mpr ⟨_, hjoin, rfl⟩⟩

end Icfg
end ProgramAnalysis
