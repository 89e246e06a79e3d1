import ProgramAnalysis.Dataflow.StoredIcfg
import ProgramAnalysis.Proofs.Dataflow.Icfg
import ProgramAnalysis.Proofs.Dataflow.StoredCfg

/-! The graph over all reachable methods, as it is stored, against the list of its edges: each map
answers what there is in the list with that end, in the order of the list. The passes that fill the
maps follow those that make the list. -/
namespace ProgramAnalysis.StoredIcfg

variable {p : Program} {calls : CallGraph} {s : StoredIcfg} {d : Draft} {m : MethodId} {c : Cfg}
  {nodes : List Node} {es rs : List FlowEdge} {ends : List (Node × Node)}
  {linked : List (Node × List MethodId)}

/-- The stored graph has the nodes, edges and linked calls of the other. -/
structure Stores (s : StoredIcfg) (g : Icfg) : Prop where
  ends : g.graph.ends = s.entries.map fun m => (.entry m, .exit m)
  nodes : s.nodes = g.graph.nodes
  linked : s.linked.entries = g.linked
  edgesFrom : ∀ n, s.edgesFrom n = g.graph.edgesFrom n
  edgesInto : ∀ n, s.edgesInto n = g.graph.edgesInto n

theorem Stores.lookup {g : Icfg} (h : s.Stores g) (n : Node) :
    s.linked.get? n = g.linked.lookup n := by
  rw [← h.linked]
  exact find_eq_lookup n s.linked.entries

/-! ### Edges -/

theorem Stores.addEdge (h : s.Stores ⟨⟨nodes, es, ends⟩, linked⟩) (e : FlowEdge) :
    (s.addEdge e).Stores ⟨⟨nodes, es ++ [e], ends⟩, linked⟩ where
  ends := h.ends
  nodes := h.nodes
  linked := h.linked
  edgesFrom n := by
    refine (s.outgoing.getD_push e.source n e).trans ?_
    rw [Graph.edgesFrom, List.filter_append, List.filter_singleton]
    refine congrArg₂ (· ++ ·) (h.edgesFrom n) ?_
    by_cases hn : e.source = n <;> simp [hn]
  edgesInto n := by
    refine (s.incoming.getD_push e.target n e).trans ?_
    rw [Graph.edgesInto, List.filter_append, List.filter_singleton]
    refine congrArg₂ (· ++ ·) (h.edgesInto n) ?_
    by_cases hn : e.target = n <;> simp [hn]

theorem Stores.addEdges (h : s.Stores ⟨⟨nodes, es, ends⟩, linked⟩) (es' : List FlowEdge) :
    (es'.foldl StoredIcfg.addEdge s).Stores ⟨⟨nodes, es ++ es', ends⟩, linked⟩ := by
  induction es' generalizing s es with
  | nil => simpa using h
  | cons e es' ih => simpa using ih (h.addEdge e)

theorem Stores.addSites (h : s.Stores ⟨⟨nodes, es, ends⟩, linked⟩)
    (sites : List (Node × List MethodId)) :
    (sites.foldl (fun g (call, found) => found.foldl (addCall · call) g) s).Stores
      ⟨⟨nodes, es ++ sites.flatMap Icfg.callEdges, ends⟩, linked⟩ := by
  have hedges : sites.foldl (fun g (call, found) => found.foldl (addCall · call) g) s =
      (sites.flatMap Icfg.callEdges).foldl StoredIcfg.addEdge s := by
    rw [List.foldl_flatMap]
    refine congrArg (sites.foldl · s) (funext fun g => funext fun (call, found) => ?_)
    rw [Icfg.callEdges, List.foldl_map]
    rfl
  rw [hedges]
  exact h.addEdges _

/-! ### Linked calls -/

def addLink (s : StoredIcfg) (l : Node × List MethodId) : StoredIcfg :=
  { s with linked := s.linked.insert l.1 l.2 }

theorem linkSite_eq {site : StmtRef} {ls : List (Node × List MethodId)}
    (h : Icfg.linkSite p calls site = .ok ls) (s : StoredIcfg) :
    linkSite p calls s site = .ok (ls.foldl addLink s) := by
  obtain ⟨found, hfound, h⟩ := bind_ok_iff.mp h
  cases h
  refine bind_ok_iff.mpr ⟨found, hfound, ?_⟩
  cases found <;> rfl

theorem linkMethod_eq {ls : List (Node × List MethodId)}
    (h : Icfg.linkMethod p calls m = .ok ls) (s : StoredIcfg) :
    linkMethod p calls s m = .ok (ls.foldl addLink s) := by
  obtain ⟨sites, hsites, h⟩ := bind_ok_iff.mp h
  obtain ⟨lists, hlists, h⟩ := bind_ok_iff.mp h
  cases h
  rw [List.foldl_flatten]
  exact bind_ok_iff.mpr
    ⟨sites, hsites, foldlM_eq_foldl (fun s _ _ hls => linkSite_eq hls s) hlists s⟩

/-- No call is linked twice, so that none is overwritten. -/
theorem Stores.addLinks (h : s.Stores ⟨⟨nodes, es, ends⟩, linked⟩)
    {ls : List (Node × List MethodId)} (hnodup : ((linked ++ ls).map (·.1)).Nodup) :
    (ls.foldl addLink s).Stores ⟨⟨nodes, es, ends⟩, linked ++ ls⟩ := by
  induction ls generalizing s linked with
  | nil => simpa using h
  | cons l ls ih =>
    have hnew : l.1 ∉ linked.map (·.1) := by
      rw [List.map_append, List.nodup_append] at hnodup
      exact fun hl => hnodup.2.2 l.1 hl l.1 List.mem_cons_self rfl
    have hlinked : (addLink s l).linked.entries = linked ++ [l] := by
      rw [← show s.linked.entries = linked from h.linked] at hnew ⊢
      exact upsert_of_notMem hnew
    rw [List.append_cons] at hnodup ⊢
    exact ih ⟨h.ends, h.nodes, hlinked, h.edgesFrom, h.edgesInto⟩ hnodup

/-! ### Methods -/

/-- The draft has these edges, and these wait. -/
structure Draft.Stores (d : Draft) (g : Icfg) (rs : List FlowEdge) : Prop where
  graph : d.graph.Stores g
  returns : d.returns = rs

theorem Draft.Stores.addEdge (h : d.Stores ⟨⟨nodes, es, ends⟩, linked⟩ rs) (e : FlowEdge) :
    (d.addEdge e).Stores ⟨⟨nodes, es ++ [Icfg.passEdge linked e], ends⟩, linked⟩
      (rs ++ Icfg.returnEdges linked e) := by
  have hlookup := h.graph.lookup e.source
  dsimp only at hlookup
  unfold Draft.addEdge Icfg.passEdge Icfg.returnEdges
  rw [← hlookup]
  cases d.graph.linked.get? e.source with
  | none => exact ⟨h.graph.addEdge e, by simpa using h.returns⟩
  | some found => exact ⟨h.graph.addEdge _, congrArg (· ++ _) h.returns⟩

theorem Draft.Stores.addEdges (h : d.Stores ⟨⟨nodes, es, ends⟩, linked⟩ rs)
    (es' : List FlowEdge) : (es'.foldl Draft.addEdge d).Stores
      ⟨⟨nodes, es ++ es'.map (Icfg.passEdge linked), ends⟩, linked⟩
      (rs ++ es'.flatMap (Icfg.returnEdges linked)) := by
  induction es' generalizing d es rs with
  | nil => simpa using h
  | cons e es' ih => simpa using ih (h.addEdge e)

/-- Adds the nodes and edges of a method's own graph. -/
def Draft.addCfg (d : Draft) (c : Cfg) : Draft :=
  c.graph.edges.foldl addEdge { d with graph.nodes := d.graph.nodes ++ c.graph.nodes }

theorem Draft.addMethod_eq (h : Cfg.build p m = .ok c) (d : Draft) :
    d.addMethod p m = .ok (d.addCfg c) := by
  obtain ⟨b, hb, h⟩ := bind_ok_iff.mp h
  cases h
  have hbuild : StoredCfg.build p m = .ok (.ofBody m b) := bind_ok_iff.mpr ⟨b, hb, rfl⟩
  unfold addMethod addCfg
  rw [hbuild, ← StoredCfg.edges_ofBody, ← (StoredCfg.lists_ofBody m b).nodes]
  rfl

theorem Draft.Stores.addCfgs (h : d.Stores ⟨⟨nodes, es, ends⟩, linked⟩ rs) (cfgs : List Cfg) :
    (cfgs.foldl Draft.addCfg d).Stores
      ⟨⟨nodes ++ cfgs.flatMap (·.graph.nodes),
        es ++ cfgs.flatMap (fun c => c.graph.edges.map (Icfg.passEdge linked)), ends⟩, linked⟩
      (rs ++ cfgs.flatMap fun c => c.graph.edges.flatMap (Icfg.returnEdges linked)) := by
  induction cfgs generalizing d nodes es rs with
  | nil => simpa using h
  | cons c cfgs ih =>
    have hnodes : Draft.Stores { d with graph.nodes := d.graph.nodes ++ c.graph.nodes }
        ⟨⟨nodes ++ c.graph.nodes, es, ends⟩, linked⟩ rs :=
      ⟨⟨h.graph.ends, congrArg (· ++ _) h.graph.nodes, h.graph.linked, h.graph.edgesFrom,
        h.graph.edgesInto⟩, h.returns⟩
    have hmethod : (d.addCfg c).Stores _ _ := hnodes.addEdges c.graph.edges
    simpa using ih hmethod

/-! ### The graph -/

/-- Where no call is linked twice, the graph that is stored is the one of the lists. -/
theorem join_stores {ms : List MethodId} {g : Icfg} (h : Icfg.join p calls = .ok (ms, g))
    (hnodup : (g.linked.map (·.1)).Nodup) : ∃ s, join p calls = .ok (ms, s) ∧ s.Stores g := by
  obtain ⟨methods, hmethods, h⟩ := bind_ok_iff.mp h
  obtain ⟨lists, hlists, h⟩ := bind_ok_iff.mp h
  obtain ⟨cfgs, hcfgs, h⟩ := bind_ok_iff.mp h
  cases h
  let start := lists.foldl (List.foldl addLink) (empty calls.entries)
  have hsites : ms.foldlM (linkMethod p calls) (empty calls.entries) = .ok start :=
    foldlM_eq_foldl (fun s _ _ hls => linkMethod_eq hls s) hlists _
  have hgraphs : ms.foldlM (Draft.addMethod p) ⟨start, []⟩ =
      .ok (cfgs.foldl Draft.addCfg ⟨start, []⟩) :=
    foldlM_eq_foldl (fun d _ _ hc => Draft.addMethod_eq hc d) hcfgs _
  have hempty : (StoredIcfg.empty calls.entries).Stores
      ⟨⟨[], [], calls.entries.map fun m => (.entry m, .exit m)⟩, []⟩ :=
    ⟨rfl, rfl, rfl, fun _ => rfl, fun _ => rfl⟩
  have hstart : start.Stores
      ⟨⟨[], [], calls.entries.map fun m => (.entry m, .exit m)⟩, lists.flatten⟩ := by
    rw [show start = lists.flatten.foldl addLink _ from List.foldl_flatten.symm]
    exact hempty.addLinks hnodup
  have hdraft : Draft.Stores ⟨start, []⟩ ⟨⟨[], [], _⟩, lists.flatten⟩ [] := ⟨hstart, rfl⟩
  have hinner := hdraft.addCfgs cfgs
  have hgraph := (hinner.graph.addSites
    (lists.flatten.mergeSort fun a b => Icfg.before a.1 b.1)).addEdges
    (cfgs.flatMap fun c => c.graph.edges.flatMap (Icfg.returnEdges lists.flatten))
  refine ⟨_, bind_ok_iff.mpr ⟨ms, hmethods, bind_ok_iff.mpr ⟨_, hsites,
    bind_ok_iff.mpr ⟨_, hgraphs, ?_⟩⟩⟩, hgraph⟩
  rw [hinner.returns, hinner.graph.linked]
  rfl

theorem build_stores {g : Icfg} (h : (Icfg.build p calls).result = .ok g)
    (hnodup : (g.linked.map (·.1)).Nodup) :
    ∃ s, (build p calls).result = .ok s ∧ s.Stores g := by
  obtain ⟨⟨ms, g'⟩, hjoin, h⟩ := Traced.bind_ok_iff.mp h
  cases h
  obtain ⟨s, hs, hstores⟩ := join_stores hjoin hnodup
  exact ⟨s, Traced.bind_ok_iff.mpr ⟨(ms, s), hs, rfl⟩, hstores⟩

/-- Both maps list the same edges, each under its own ends, and the ends are nodes. -/
structure Mirrored (s : StoredIcfg) : Prop where
  edgesFrom : ∀ n, ∀ e ∈ s.edgesFrom n, e.source = n ∧ n ∈ s.nodes ∧ e.target ∈ s.nodes
  edgesInto : ∀ n, ∀ e ∈ s.edgesInto n, e.target = n ∧ n ∈ s.nodes ∧ e.source ∈ s.nodes
  mirrored : ∀ n k, (s.edgesFrom n).filter (fun e => e.target = k) =
    (s.edgesInto k).filter fun e => e.source = n

theorem Stores.mirrored {g : Icfg} (h : s.Stores g) (hclosed : g.graph.Closed) : s.Mirrored := by
  constructor
  case edgesFrom =>
    intro n e he
    rw [h.edgesFrom] at he
    rw [h.nodes]
    exact hclosed.of_mem_edgesFrom he
  case edgesInto =>
    intro n e he
    rw [h.edgesInto] at he
    rw [h.nodes]
    exact hclosed.of_mem_edgesInto he
  case mirrored =>
    intro n k
    rw [h.edgesFrom, h.edgesInto]
    exact g.graph.filter_edgesFrom n k

end ProgramAnalysis.StoredIcfg
