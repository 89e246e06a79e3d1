import Mathlib.Data.List.Sigma
import ProgramAnalysis.Proofs.Dataflow.StoredIcfg

/-! The graph over all reachable methods, edge by edge. It has the nodes of the methods' own graphs,
and each edge of these either as it is or, out of a call of which some callee has a body, as an edge
past the callees together with a way into each such callee and a way back. Nothing else is in it, and
nothing twice that is not twice in a method's own graph. As it is stored, both its maps list all of
these edges. -/
namespace ProgramAnalysis

/-- Edges gathered by an end that is a node. -/
theorem Graph.flatMap_filter_perm {ν ε : Type} [DecidableEq ν] {key : Edge ν ε → ν} {nodes : List ν}
    {edges : List (Edge ν ε)} (hnodup : nodes.Nodup) (h : ∀ e ∈ edges, key e ∈ nodes) :
    (nodes.flatMap fun n => edges.filter fun e => key e = n).Perm edges := by
  induction nodes generalizing edges with
  | nil =>
    have hnil : edges = [] := List.eq_nil_iff_forall_not_mem.mpr fun e he => absurd (h e he) nofun
    rw [hnil, List.flatMap_nil]
  | cons n ns ih =>
    obtain ⟨hn, hns⟩ := List.nodup_cons.mp hnodup
    let rest := edges.filter fun e => !decide (key e = n)
    have hrest : (ns.flatMap fun k => rest.filter fun e => key e = k).Perm rest := by
      refine ih hns fun e he => ?_
      obtain ⟨he, hne⟩ := List.mem_filter.mp he
      refine (List.mem_cons.mp (h e he)).resolve_left ?_
      simpa using hne
    have hsame : ∀ k ∈ ns, (edges.filter fun e => key e = k) = rest.filter fun e => key e = k := by
      intro k hk
      rw [List.filter_filter]
      refine List.filter_congr fun e _ => ?_
      by_cases hek : key e = k
      · have hkn : k ≠ n := fun heq => hn (heq ▸ hk)
        simp [hek, hkn]
      · simp [hek]
    rw [List.flatMap_cons, List.flatMap_congr hsame]
    exact (hrest.append_left _).trans (List.filter_append_perm _ edges)

namespace Icfg

variable {p : Program} {calls : CallGraph} {m k : MethodId} {b : Body} {n c r : Node}
  {e e' : FlowEdge}

/-! ### What is expected -/

/-- The reachable methods that have bodies, with these. -/
def bodies (p : Program) (calls : CallGraph) : List (MethodId × Body) :=
  calls.reachable.toList.filterMap fun m => (p.body? m).map (m, ·)

/-- The edges of all of them, each within its method. -/
def inner (p : Program) (calls : CallGraph) : List FlowEdge :=
  (bodies p calls).flatMap fun (m, b) => (Cfg.ofBody m b).graph.edges

/-- The callees with bodies, if there is a call at the node. -/
def bodied (p : Program) (calls : CallGraph) (n : Node) : List MethodId :=
  match n.point, p.stmtAt? n with
  | .stmt i, some (.invoke _ _) => (calls.callees ⟨n.method, i⟩).filter fun k => (p.body? k).isSome
  | _, _ => []

/-- An edge within a method, or what stands for it at a call. -/
def expand (p : Program) (calls : CallGraph) (e : FlowEdge) : List FlowEdge :=
  let ks := bodied p calls e.source
  if ks = [] then [e]
  else past e.source e.target :: ks.flatMap fun k => [enter e.source k, leave e.source e.target k]

theorem mem_bodies : (m, b) ∈ bodies p calls ↔ Includes p calls m b := by
  unfold bodies Includes
  simp only [List.mem_filterMap, Array.mem_toList_iff, Option.map_eq_some_iff, Prod.mk.injEq]
  constructor
  · rintro ⟨_, hm, _, hb, rfl, rfl⟩
    exact ⟨hm, hb⟩
  · rintro ⟨hm, hb⟩
    exact ⟨m, hm, b, hb, rfl, rfl⟩

theorem mem_inner : e ∈ inner p calls ↔
    ∃ m b, Includes p calls m b ∧ e ∈ (Cfg.ofBody m b).graph.edges := by
  simp only [inner, List.mem_flatMap, Prod.exists, mem_bodies]

theorem nodup_bodies (hbuilt : calls.Built) : ((bodies p calls).map (·.1)).Nodup := by
  unfold bodies
  rw [List.map_filterMap]
  refine hbuilt.nodup_reachable.filterMap fun m m' k hk hk' => ?_
  simp only [Option.mem_def, Option.map_map, Option.map_eq_some_iff, Function.comp_apply] at hk hk'
  obtain ⟨_, _, rfl⟩ := hk
  obtain ⟨_, _, rfl⟩ := hk'
  rfl

theorem exists_call_of_bodied (h : bodied p calls n ≠ []) :
    ∃ i result call, n.point = .stmt i ∧ p.stmtAt? n = some (.invoke result call) := by
  unfold bodied at h
  split at h
  · next i result call hi hs => exact ⟨i, result, call, hi, hs⟩
  · exact absurd rfl h

theorem bodied_call {i : Nat} {result : Option VarId} {call : Call} (hb : p.body? m = some b)
    (hs : b.stmt? i = some (.invoke result call)) : bodied p calls (.stmt m i) =
      (calls.callees ⟨m, i⟩).filter fun k => (p.body? k).isSome := by
  have hs : p.stmtAt? (.stmt m i) = some (.invoke result call) := by
    rw [Program.stmtAt?_stmt, hb]
    exact hs
  unfold bodied
  rw [hs]
  rfl

theorem nodup_bodied (hbuilt : calls.Built) (n : Node) : (bodied p calls n).Nodup := by
  unfold bodied
  split
  · exact (hbuilt.nodup_callees _).filter _
  · exact List.nodup_nil

/-! ### Calls

A call has one edge out of it, so that what happens at calls can be told by these edges. -/

def follow (m : MethodId) (b : Body) (i : Nat) : FlowEdge :=
  .within (.stmt m i) (Cfg.nodeAt m b.size (i + 1)) .fallThrough

/-- The edges out of calls. -/
def follows (p : Program) (calls : CallGraph) : List FlowEdge :=
  (bodies p calls).flatMap fun (m, b) => b.callSites.map (follow m b)

theorem bodied_of_not_call {i : Nat} {s : Stmt} (hb : p.body? m = some b) (hs : b.stmt? i = some s)
    (hcall : ∀ result call, s ≠ .invoke result call) : bodied p calls (.stmt m i) = [] := by
  by_contra hne
  obtain ⟨_, result, call, _, hs'⟩ := exists_call_of_bodied hne
  rw [Program.stmtAt?_stmt, hb, Option.bind_some, hs] at hs'
  exact hcall result call (Option.some.inj hs')

theorem callSites_eq (b : Body) : b.callSites = b.indexed.flatMap fun (i, s) =>
    match s with
    | .invoke _ _ => [i]
    | _ => [] := by
  unfold Body.callSites Body.calls
  rw [List.filterMap_eq_flatMap_toList, List.map_flatMap]
  refine List.flatMap_congr fun (i, s) _ => ?_
  cases s <;> rfl

/-- What is empty off the calls with bodied callees can be gathered over the edges out of calls. -/
theorem flatMap_inner {β : Type} {h : FlowEdge → List β}
    (hoff : ∀ e ∈ inner p calls, bodied p calls e.source = [] → h e = []) :
    (inner p calls).flatMap h = (follows p calls).flatMap h := by
  unfold inner follows
  rw [List.flatMap_assoc, List.flatMap_assoc]
  refine List.flatMap_congr fun (m, b) hm => ?_
  have hm := mem_bodies.mp hm
  have hentry : h (.within (.entry m) (Cfg.nodeAt m b.size 0) .entry) = [] :=
    hoff _ (mem_inner.mpr ⟨m, b, hm, Cfg.mem_edges.mpr (.inl rfl)⟩) rfl
  show (_ :: b.indexed.flatMap _).flatMap h = (b.callSites.map (follow m b)).flatMap h
  rw [List.flatMap_cons, hentry, List.nil_append, List.flatMap_assoc, callSites_eq, List.flatMap_map,
    List.flatMap_assoc]
  refine List.flatMap_congr fun (i, s) hs => ?_
  have hs := Program.mem_indexed.mp hs
  have hidle : (∀ result call, s ≠ .invoke result call) →
      (Cfg.edgesOf m b.size i s).flatMap h = [] := by
    refine fun hcall => List.flatMap_eq_nil_iff.mpr fun e he => ?_
    obtain ⟨he, hsource⟩ := (Cfg.mem_edgesOf hs).mp he
    refine hoff e (mem_inner.mpr ⟨m, b, hm, he⟩) ?_
    rw [hsource]
    exact bodied_of_not_call hm.2 hs hcall
  cases s with
  | invoke result call => rfl
  | assign x e | store l v | branch c t | goto t | switch v cases d | ret v | nop => exact hidle nofun

theorem nodup_callSites (b : Body) : b.callSites.Nodup := by
  have hindices : b.indexed.Pairwise fun x y => x.1 ≠ y.1 := by
    have hmap : b.indexed.map (·.1) = b.stmts.toList.zipIdx.map (·.2) := List.map_map
    have hnodup := List.nodup_zipIdx_map_snd b.stmts.toList
    rw [← hmap] at hnodup
    exact List.pairwise_map.mp hnodup
  rw [callSites_eq]
  refine List.pairwise_flatMap.mpr ⟨fun (i, s) _ => ?_, hindices.imp fun {x y} hxy i hi j hj => ?_⟩
  · cases s with
    | invoke result call => exact List.pairwise_singleton _ _
    | assign | store | branch | goto | «switch» | ret | nop => exact List.Pairwise.nil
  · obtain ⟨k, s⟩ := x
    obtain ⟨l, t⟩ := y
    have hi : i = k := by cases s <;> simp_all
    have hj : j = l := by cases t <;> simp_all
    rw [hi, hj]
    exact hxy

/-- No two edges of `follows` go out of the same call. -/
theorem pairwise_follows (hbuilt : calls.Built) :
    (follows p calls).Pairwise fun e e' => e.source ≠ e'.source := by
  refine List.pairwise_flatMap.mpr ⟨fun (m, b) _ => ?_, ?_⟩
  · refine List.pairwise_map.mpr ((nodup_callSites b).imp fun hij heq => hij ?_)
    cases heq
    rfl
  · refine (List.pairwise_map.mp (nodup_bodies hbuilt)).imp fun {x y} hxy e he e' he' heq => hxy ?_
    obtain ⟨i, _, rfl⟩ := List.mem_map.mp he
    obtain ⟨j, _, rfl⟩ := List.mem_map.mp he'
    exact congrArg Node.method heq

/-! ### The graph is found -/

/-- A call is linked to its bodied callees, if it has some. -/
def linkAt (p : Program) (calls : CallGraph) (n : Node) : List (Node × List MethodId) :=
  if bodied p calls n = [] then [] else [(n, bodied p calls n)]

def links (p : Program) (calls : CallGraph) : List (Node × List MethodId) :=
  (follows p calls).flatMap fun e => linkAt p calls e.source

/-- The graph over the bodies. -/
def joined (p : Program) (calls : CallGraph) : Icfg :=
  assemble calls.entries ((bodies p calls).map fun (m, b) => Cfg.ofBody m b) (links p calls)

theorem nodup_links (hbuilt : calls.Built) : ((links p calls).map (·.1)).Nodup := by
  have hsource : ∀ {n l}, l ∈ linkAt p calls n → l.1 = n := by
    intro n l hl
    unfold linkAt at hl
    split at hl
    · cases hl
    · exact congrArg Prod.fst (List.mem_singleton.mp hl)
  refine List.pairwise_map.mpr (List.pairwise_flatMap.mpr ⟨fun e _ => ?_, ?_⟩)
  · unfold linkAt
    split
    · exact .nil
    · exact List.pairwise_singleton _ _
  · refine (pairwise_follows hbuilt).imp fun {e e'} hne l hl l' hl' heq => hne ?_
    rw [← hsource hl, ← hsource hl', heq]

theorem withBody_eq {ms : List MethodId} (h : ∀ m ∈ ms, m.index < p.methods.size) :
    withBody p ms = .ok (ms.filter fun m => (p.body? m).isSome) :=
  filterM_eq_filter fun m hm => bind_ok_iff.mpr ⟨_, Program.getBody_eq (h m hm), rfl⟩

theorem map_fst_bodies (p : Program) (calls : CallGraph) : (bodies p calls).map (·.1) =
    calls.reachable.toList.filter fun m => (p.body? m).isSome := by
  unfold bodies
  rw [List.map_filterMap, ← List.filterMap_eq_filter]
  refine List.filterMap_congr fun m _ => ?_
  cases hb : p.body? m <;> simp [Option.guard, hb]

section Found

variable (hclosed : calls.Closed) (hlt : ∀ m ∈ calls.reachable, m.index < p.methods.size)
include hclosed hlt

theorem linkSite_eq {i : Nat} {result : Option VarId} {call : Call} (hb : p.body? m = some b)
    (hs : b.stmt? i = some (.invoke result call)) :
    linkSite p calls ⟨m, i⟩ = .ok (linkAt p calls (.stmt m i)) := by
  have hcallees : ∀ k ∈ calls.callees ⟨m, i⟩, k.index < p.methods.size :=
    fun k hk => hlt k (hclosed.mem_callees hk)
  refine bind_ok_iff.mpr ⟨_, withBody_eq hcallees, ?_⟩
  unfold linkAt
  rw [bodied_call hb hs]
  simp only [List.isEmpty_iff]
  rfl

theorem linkMethod_eq (hb : p.body? m = some b) : linkMethod p calls m =
    .ok ((b.callSites.map (follow m b)).flatMap fun e => linkAt p calls e.source) := by
  have hsites : p.getCallSites m = .ok (b.callSites.map (StmtRef.mk m)) := by
    unfold Program.getCallSites
    rw [Program.getBody_eq (Program.lt_of_body? hb), hb]
    rfl
  have hlinks : (b.callSites.map (StmtRef.mk m)).mapM (linkSite p calls) =
      .ok ((b.callSites.map (StmtRef.mk m)).map fun site => linkAt p calls (.ofStmtRef site)) := by
    refine mapM_eq_map fun site hsite => ?_
    obtain ⟨rfl, result, call, hs⟩ := (mem_callSites hb hsites).mp hsite
    exact linkSite_eq hclosed hlt hb hs
  refine bind_ok_iff.mpr ⟨_, hsites, bind_ok_iff.mpr ⟨_, hlinks, congrArg Except.ok ?_⟩⟩
  rw [← List.flatMap_def, List.flatMap_map, List.flatMap_map]
  rfl

theorem join_eq : join p calls = .ok ((bodies p calls).map (·.1), joined p calls) := by
  have hmethods : withBody p calls.reachable.toList = .ok ((bodies p calls).map (·.1)) := by
    rw [map_fst_bodies]
    exact withBody_eq fun m hm => hlt m (Array.mem_toList_iff.mp hm)
  have hlinked : ((bodies p calls).map (·.1)).mapM (linkMethod p calls) =
      .ok ((bodies p calls).map fun (m, b) =>
        (b.callSites.map (follow m b)).flatMap fun e => linkAt p calls e.source) := by
    rw [List.mapM_map]
    exact mapM_eq_map fun e he => linkMethod_eq hclosed hlt (mem_bodies.mp he).2
  have hcfgs : ((bodies p calls).map (·.1)).mapM (Cfg.build p) =
      .ok ((bodies p calls).map fun (m, b) => Cfg.ofBody m b) := by
    rw [List.mapM_map]
    exact mapM_eq_map fun e he => Cfg.build_eq (mem_bodies.mp he).2
  refine bind_ok_iff.mpr ⟨_, hmethods, bind_ok_iff.mpr ⟨_, hlinked, bind_ok_iff.mpr ⟨_, hcfgs, ?_⟩⟩⟩
  rw [← List.flatMap_def, ← List.flatMap_assoc]
  rfl

end Found

/-! ### Its edges -/

theorem lookup_links (hm : Includes p calls m b) (hn : n ∈ (Cfg.ofBody m b).graph.nodes) :
    (links p calls).lookup n = if bodied p calls n = [] then none else some (bodied p calls n) := by
  have hfrom : ∀ l ∈ links p calls, l.2 = bodied p calls l.1 ∧ l.2 ≠ [] := by
    intro l hl
    obtain ⟨e, _, hl⟩ := List.mem_flatMap.mp hl
    unfold linkAt at hl
    split at hl
    · cases hl
    · next hne =>
      cases List.mem_singleton.mp hl
      exact ⟨rfl, hne⟩
  cases hlookup : (links p calls).lookup n with
  | some ks =>
    obtain ⟨heq, hne⟩ : ks = bodied p calls n ∧ ks ≠ [] := hfrom _ (mem_of_lookup hlookup)
    rw [if_neg (heq ▸ hne), heq]
  | none =>
    rw [if_pos]
    by_contra hne
    obtain ⟨i, result, call, hi, hs⟩ := exists_call_of_bodied hne
    have heq : n = .stmt m i := by
      obtain ⟨k, point⟩ := n
      cases Cfg.method_of_mem_nodes hn
      exact congrArg (Node.mk _) hi
    subst heq
    rw [Program.stmtAt?_stmt, hm.2] at hs
    have hcall : i ∈ b.callSites :=
      List.mem_map.mpr ⟨(i, result, call), ClassHierarchy.mem_calls.mpr hs, rfl⟩
    have hfollow : follow m b i ∈ follows p calls :=
      List.mem_flatMap.mpr ⟨(m, b), mem_bodies.mpr hm, List.mem_map_of_mem hcall⟩
    have hlink : (Node.stmt m i, bodied p calls (.stmt m i)) ∈ linkAt p calls (.stmt m i) := by
      unfold linkAt
      rw [if_neg hne]
      exact List.mem_singleton_self _
    have hmem : (Node.stmt m i, bodied p calls (.stmt m i)) ∈ links p calls :=
      List.mem_flatMap.mpr ⟨_, hfollow, hlink⟩
    simpa using List.lookup_eq_none_iff.mp hlookup _ hmem

/-- An edge, the ways into the callees and the ways back, as the passes over the graph make them. -/
theorem perm_expand (he : e ∈ inner p calls) :
    ([passEdge (links p calls) e] ++ (bodied p calls e.source).map (enter e.source) ++
      returnEdges (links p calls) e).Perm (expand p calls e) := by
  obtain ⟨m, b, hm, he⟩ := mem_inner.mp he
  have hlookup := lookup_links hm (Cfg.closed_ofBody m b e he).1
  unfold expand passEdge returnEdges
  dsimp only
  rw [hlookup]
  by_cases hks : bodied p calls e.source = []
  · rw [if_pos hks, if_pos hks, hks]
    rfl
  · rw [if_neg hks, if_neg hks, Option.getD_some, List.append_assoc]
    refine List.Perm.cons _ ?_
    have hpairs := List.flatMap_append_perm (bodied p calls e.source)
      (fun k => [enter e.source k]) fun k => [leave e.source e.target k]
    rw [← List.map_eq_flatMap, ← List.map_eq_flatMap] at hpairs
    exact hpairs

theorem callEdges_linkAt (n : Node) :
    (linkAt p calls n).flatMap callEdges = (bodied p calls n).map (enter n) := by
  unfold linkAt
  split
  · next hnil => rw [hnil]; rfl
  · exact List.flatMap_singleton _ _

theorem edges_perm (p : Program) (calls : CallGraph) :
    (joined p calls).graph.edges.Perm ((inner p calls).flatMap (expand p calls)) := by
  have hpass : ((bodies p calls).map fun (m, b) => Cfg.ofBody m b).flatMap
      (fun c => c.graph.edges.map (passEdge (links p calls))) =
      (inner p calls).flatMap fun e => [passEdge (links p calls) e] := by
    rw [← List.map_eq_flatMap, inner, List.map_flatMap, List.flatMap_map]
  have hreturn : ((bodies p calls).map fun (m, b) => Cfg.ofBody m b).flatMap
      (fun c => c.graph.edges.flatMap (returnEdges (links p calls))) =
      (inner p calls).flatMap (returnEdges (links p calls)) := by
    rw [inner, List.flatMap_assoc, List.flatMap_map]
  have henter : (((links p calls).mergeSort fun a b => before a.1 b.1).flatMap callEdges).Perm
      ((inner p calls).flatMap fun e => (bodied p calls e.source).map (enter e.source)) := by
    rw [flatMap_inner fun e _ hnil => by rw [hnil]; rfl]
    refine ((List.mergeSort_perm _ _).flatMap_right callEdges).trans ?_
    rw [links, List.flatMap_assoc]
    simp only [callEdges_linkAt]
    rfl
  unfold joined assemble
  dsimp only
  rw [hpass, hreturn]
  refine ((henter.append_left _).append_right _).trans ?_
  refine ((List.flatMap_append_perm _ _ _).append_right _).trans ?_
  refine (List.flatMap_append_perm _ _ _).trans ?_
  exact List.Perm.flatMap_left _ fun e he => perm_expand he

theorem mem_expand : e' ∈ expand p calls e ↔ bodied p calls e.source = [] ∧ e' = e ∨
    bodied p calls e.source ≠ [] ∧ (e' = past e.source e.target ∨
      ∃ k ∈ bodied p calls e.source, e' = enter e.source k ∨ e' = leave e.source e.target k) := by
  unfold expand
  dsimp only
  split
  · next hnil => simp [hnil]
  · next hne => simp [hne]

/-- The ways into a callee and back come together. -/
theorem of_mem_expand (he : e ∈ inner p calls) (h : e' ∈ expand p calls e) :
    (∃ flow, e'.label.kind = .within flow) ∨ ∃ c r, e' = past c r ∨
      ∃ k, (e' = enter c k ∨ e' = leave c r k) ∧
        enter c k ∈ expand p calls e ∧ leave c r k ∈ expand p calls e := by
  rcases mem_expand.mp h with ⟨_, rfl⟩ | ⟨hne, hpast | ⟨k, hk, h⟩⟩
  · obtain ⟨m, b, _, he⟩ := mem_inner.mp he
    exact .inl (Cfg.kind_of_mem_edges he)
  · exact .inr ⟨_, _, .inl hpast⟩
  · have hboth : ∀ x, x = enter e.source k ∨ x = leave e.source e.target k → x ∈ expand p calls e :=
      fun x hx => mem_expand.mpr (.inr ⟨hne, .inr ⟨k, hk, hx⟩⟩)
    exact .inr ⟨_, _, .inr ⟨k, h, hboth _ (.inl rfl), hboth _ (.inr rfl)⟩⟩

/-- What an edge expands to carries its source as the call it belongs to. -/
theorem site_of_mem_expand (h : e' ∈ expand p calls e) (he : e.label.site = none)
    (htagged : e'.label.site.isSome) : e'.label.site = some e.source := by
  rcases mem_expand.mp h with ⟨_, rfl⟩ | ⟨_, rfl | ⟨k, _, rfl | rfl⟩⟩
  · rw [he] at htagged
    cases htagged
  · rfl
  · rfl
  · rfl

theorem nodup_expand (hbuilt : calls.Built) (e : FlowEdge) : (expand p calls e).Nodup := by
  obtain ⟨c, r, label⟩ := e
  unfold expand
  dsimp only
  split
  · exact List.pairwise_singleton _ _
  · refine List.nodup_cons.mpr ⟨fun h => ?_, List.pairwise_flatMap.mpr ⟨fun k _ => ?_, ?_⟩⟩
    · obtain ⟨k, _, h⟩ := List.mem_flatMap.mp h
      rcases List.mem_cons.mp h with h | h
      · cases h
      · cases List.mem_singleton.mp h
    · refine List.nodup_cons.mpr ⟨fun h => ?_, List.pairwise_singleton _ _⟩
      cases List.mem_singleton.mp h
    · refine (nodup_bodied hbuilt c).imp fun {k l} hkl x hx y hy heq => hkl ?_
      subst heq
      simp only [List.mem_cons, List.not_mem_nil, or_false] at hx hy
      rcases hx with rfl | rfl
      · rcases hy with hy | hy <;> cases hy
        rfl
      · rcases hy with hy | hy <;> cases hy
        rfl

theorem nodup_tagged (hbuilt : calls.Built) :
    (((inner p calls).flatMap (expand p calls)).filter (·.label.site.isSome)).Nodup := by
  have hsite : ∀ e ∈ follows p calls, e.label.site = none := by
    intro e he
    obtain ⟨⟨m, b⟩, _, he⟩ := List.mem_flatMap.mp he
    obtain ⟨i, _, rfl⟩ := List.mem_map.mp he
    rfl
  have hoff : ∀ e ∈ inner p calls, bodied p calls e.source = [] →
      (expand p calls e).filter (·.label.site.isSome) = [] := by
    intro e he hnil
    obtain ⟨m, b, _, he⟩ := mem_inner.mp he
    unfold expand
    dsimp only
    rw [if_pos hnil, List.filter_cons_of_neg (by simp [Cfg.site_of_mem_edges he]), List.filter_nil]
  rw [List.filter_flatMap, flatMap_inner hoff]
  refine List.pairwise_flatMap.mpr ⟨fun e _ => (nodup_expand hbuilt e).filter _, ?_⟩
  refine (pairwise_follows hbuilt).imp_of_mem fun {e e'} he he' hne x hx y hy heq => hne ?_
  subst heq
  obtain ⟨hx, htagged⟩ := List.mem_filter.mp hx
  obtain ⟨hy, _⟩ := List.mem_filter.mp hy
  have hxe := site_of_mem_expand hx (hsite e he) htagged
  rw [site_of_mem_expand hy (hsite e' he') htagged] at hxe
  exact (Option.some.inj hxe).symm

theorem nodup_nodes (hbuilt : calls.Built) :
    ((bodies p calls).flatMap fun (m, b) => (Cfg.ofBody m b).graph.nodes).Nodup := by
  refine List.pairwise_flatMap.mpr ⟨fun (m, b) _ => ?_, ?_⟩
  · have hstmts : ((List.range b.size).map (Node.stmt m)).Nodup :=
      List.pairwise_map.mpr (List.nodup_range.imp fun hij heq => hij (by cases heq; rfl))
    refine List.nodup_cons.mpr ⟨fun h => ?_, List.nodup_append.mpr ⟨hstmts, ?_, ?_⟩⟩
    · rcases List.mem_append.mp h with h | h
      · obtain ⟨i, _, h⟩ := List.mem_map.mp h
        cases h
      · cases List.mem_singleton.mp h
    · exact List.pairwise_singleton _ _
    · intro x hx y hy heq
      obtain ⟨i, _, rfl⟩ := List.mem_map.mp hx
      cases heq.trans (List.mem_singleton.mp hy)
  · refine (List.pairwise_map.mp (nodup_bodies hbuilt)).imp fun {x y} hxy n hn k hk heq => hxy ?_
    rw [← Cfg.method_of_mem_nodes hn, ← Cfg.method_of_mem_nodes hk, heq]

/-! ### The graph as a whole -/

/-- The graph is the methods' own graphs, expanded at calls, and it is stored as it is. -/
structure Expands (p : Program) (calls : CallGraph) (g : Icfg) (s : StoredIcfg) : Prop where
  nodes : g.graph.nodes = (bodies p calls).flatMap fun (m, b) => (Cfg.ofBody m b).graph.nodes
  nodup : g.graph.nodes.Nodup
  edges : g.graph.edges.Perm ((inner p calls).flatMap (expand p calls))
  /-- What belongs to a call is there once. -/
  once : (g.graph.edges.filter (·.label.site.isSome)).Nodup
  closed : g.graph.Closed
  stored : s.Stores g
  mirrored : s.Mirrored
  outgoing : (s.nodes.flatMap s.edgesFrom).Perm ((inner p calls).flatMap (expand p calls))
  incoming : (s.nodes.flatMap s.edgesInto).Perm ((inner p calls).flatMap (expand p calls))
  /-- Control that comes back has gone in. -/
  returned : ∀ e ∈ g.graph.edges, e.label.kind = .ret →
    ∃ c r k, e = leave c r k ∧ enter c k ∈ g.graph.edges
  /-- Control that goes in comes back. -/
  entered : ∀ e ∈ g.graph.edges, e.label.kind = .call →
    ∃ c k, e = enter c k ∧ ∃ r, leave c r k ∈ g.graph.edges

/-- Over a call graph of the program's methods whose callees are reachable the graph is found, also as
it is stored, and it is the expansion. -/
theorem build_expands (hbuilt : calls.Built) (hclosed : calls.Closed)
    (hlt : ∀ m ∈ calls.reachable, m.index < p.methods.size) :
    ∃ g s, (build p calls).result = .ok g ∧ (StoredIcfg.build p calls).result = .ok s ∧
      Expands p calls g s := by
  have hbuild : (build p calls).result = .ok (joined p calls) :=
    Traced.bind_ok_iff.mpr ⟨_, join_eq hclosed hlt, rfl⟩
  have hnodes : (joined p calls).graph.nodes =
      (bodies p calls).flatMap fun (m, b) => (Cfg.ofBody m b).graph.nodes := List.flatMap_map _ _ _
  have hnodup : (joined p calls).graph.nodes.Nodup := hnodes ▸ nodup_nodes hbuilt
  have hends := (build_joins hbuild).closed hclosed
  have hmem : ∀ {e}, e ∈ (joined p calls).graph.edges ↔
      ∃ e' ∈ inner p calls, e ∈ expand p calls e' := fun {e} =>
    (edges_perm p calls).mem_iff.trans List.mem_flatMap
  obtain ⟨s, hs, hstores⟩ := StoredIcfg.build_stores hbuild (nodup_links hbuilt)
  refine ⟨_, s, hbuild, hs, hnodes, hnodup, edges_perm p calls, ?_, hends, hstores,
    hstores.mirrored hends, ?_, ?_, ?_, ?_⟩
  · exact ((edges_perm p calls).filter _).nodup_iff.mpr (nodup_tagged hbuilt)
  · rw [hstores.nodes, List.flatMap_congr fun n _ => hstores.edgesFrom n]
    refine .trans ?_ (edges_perm p calls)
    exact Graph.flatMap_filter_perm hnodup fun e he => (hends e he).1
  · rw [hstores.nodes, List.flatMap_congr fun n _ => hstores.edgesInto n]
    refine .trans ?_ (edges_perm p calls)
    exact Graph.flatMap_filter_perm hnodup fun e he => (hends e he).2
  · intro e he hkind
    obtain ⟨e', he', h⟩ := hmem.mp he
    rcases of_mem_expand he' h with ⟨flow, h⟩ | ⟨c, r, rfl | ⟨k, rfl | rfl, henter, _⟩⟩
    · cases hkind.symm.trans h
    · cases hkind
    · cases hkind
    · exact ⟨c, r, k, rfl, hmem.mpr ⟨e', he', henter⟩⟩
  · intro e he hkind
    obtain ⟨e', he', h⟩ := hmem.mp he
    rcases of_mem_expand he' h with ⟨flow, h⟩ | ⟨c, r, rfl | ⟨k, rfl | rfl, _, hleave⟩⟩
    · cases hkind.symm.trans h
    · cases hkind
    · exact ⟨c, k, rfl, r, hmem.mpr ⟨e', he', hleave⟩⟩
    · cases hkind

/-- A method whose only statement calls the method itself, or a method without a body. -/
def recursiveBuilder : Builder where
  classes := #[⟨"C", none, [], false, false, [("void m()", ⟨0⟩), ("void n()", ⟨1⟩)], []⟩]
  fields := #[]
  methods := #[⟨"void m()", ⟨0⟩, true, false,
      some ⟨none, [], #[.invoke none ⟨.static, ⟨⟨0⟩, "void m()"⟩, none, []⟩]⟩⟩,
    ⟨"void n()", ⟨0⟩, true, false, none⟩]
  vars := #[]
  entry := none
  root := none

theorem accepted_recursive : recursiveBuilder.program.Accepted := by
  have hm := (Builder.Built.empty.addClass "C" none).addMethod
    (rfl : Builder.addMethod _ ⟨0⟩ "void m()" true = .ok (_, _))
  have hn := hm.addMethod (rfl : Builder.addMethod _ ⟨0⟩ "void n()" true = .ok (_, _))
  exact ⟨recursiveBuilder, hn.setBody (rfl : Builder.setBody _ ⟨0⟩ _ = .ok _), rfl⟩

def recursiveCalls : CallGraph :=
  ((((CallGraph.empty.addEntry ⟨0⟩).addReachable ⟨0⟩).addReachable ⟨1⟩).addEdge
    ⟨.static, ⟨⟨0⟩, 0⟩, ⟨0⟩⟩).addEdge ⟨.static, ⟨⟨0⟩, 0⟩, ⟨1⟩⟩

theorem built_recursiveCalls : recursiveCalls.Built :=
  ((((CallGraph.Built.empty.addEntry ⟨0⟩).addReachable ⟨0⟩).addReachable ⟨1⟩).addEdge
    ⟨.static, ⟨⟨0⟩, 0⟩, ⟨0⟩⟩).addEdge ⟨.static, ⟨⟨0⟩, 0⟩, ⟨1⟩⟩

/-- The call returns into the exit of its own method, from there. -/
theorem build_expands_recursive : recursiveBuilder.program.Accepted ∧ recursiveCalls.Closed ∧
    ∃ g s, (build recursiveBuilder.program recursiveCalls).result = .ok g ∧
      (StoredIcfg.build recursiveBuilder.program recursiveCalls).result = .ok s ∧
      Expands recursiveBuilder.program recursiveCalls g s ∧
      g.graph.edges.Perm [.within (.entry ⟨0⟩) (.stmt ⟨0⟩ 0) .entry,
        past (.stmt ⟨0⟩ 0) (.exit ⟨0⟩), enter (.stmt ⟨0⟩ 0) ⟨0⟩,
        leave (.stmt ⟨0⟩ 0) (.exit ⟨0⟩) ⟨0⟩] := by
  have hclosed : recursiveCalls.Closed := by
    unfold CallGraph.Closed
    decide +kernel
  obtain ⟨g, s, hg, hs, h⟩ := build_expands (p := recursiveBuilder.program) built_recursiveCalls hclosed
    (by decide +kernel)
  refine ⟨accepted_recursive, hclosed, g, s, hg, hs, h, h.edges.trans (.of_eq ?_)⟩
  decide +kernel

end Icfg
end ProgramAnalysis
