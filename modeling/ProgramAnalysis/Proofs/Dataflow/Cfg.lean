import ProgramAnalysis.Dataflow.Cfg
import ProgramAnalysis.Proofs.Dataflow.Solver
import ProgramAnalysis.Proofs.Program.Accepted

/-! Control-flow graphs: where their edges come from, and that these join nodes of the graph. -/
namespace ProgramAnalysis

namespace Graph

variable {ν ε : Type} [DecidableEq ν] {g : Graph ν ε} {e : Edge ν ε} {n : ν}

theorem Closed.of_mem_edgesFrom (h : g.Closed) (he : e ∈ g.edgesFrom n) :
    e.source = n ∧ n ∈ g.nodes ∧ e.target ∈ g.nodes := by
  obtain ⟨hmem, hn⟩ := List.mem_filter.mp he
  obtain rfl := of_decide_eq_true hn
  exact ⟨rfl, h e hmem⟩

theorem Closed.of_mem_edgesInto (h : g.Closed) (he : e ∈ g.edgesInto n) :
    e.target = n ∧ n ∈ g.nodes ∧ e.source ∈ g.nodes := by
  obtain ⟨hmem, hn⟩ := List.mem_filter.mp he
  obtain rfl := of_decide_eq_true hn
  exact ⟨rfl, (h e hmem).symm⟩

/-- The edges from one node to another are the same from either end. -/
theorem filter_edgesFrom (g : Graph ν ε) (n k : ν) :
    ((g.edgesFrom n).filter fun e => e.target = k) =
      (g.edgesInto k).filter fun e => e.source = n := by
  rw [edgesFrom, edgesInto, List.filter_filter, List.filter_filter]
  exact List.filter_congr fun e _ => Bool.and_comm _ _

end Graph

variable {p : Program} {m : MethodId} {b : Body} {n : Node} {e : FlowEdge} {i : Nat} {s : Stmt}

theorem Program.stmtAt?_entry (p : Program) (m : MethodId) : p.stmtAt? (.entry m) = none := rfl

theorem Program.stmtAt?_stmt (p : Program) (m : MethodId) (i : Nat) :
    p.stmtAt? (.stmt m i) = (p.body? m).bind (·.stmt? i) := by
  unfold Program.stmtAt? Program.body? Node.stmt Node.stmtIndex?
  cases p.method? m <;> rfl

theorem Program.Accepted.lt_of_stmtAt? {v : VarId} (hp : p.Accepted) (hs : p.stmtAt? n = some s)
    (hv : s.def? = some v ∨ v ∈ s.uses) : v.index < p.vars.size := by
  obtain ⟨k, point⟩ := n
  cases point with
  | entry | exit => cases hs
  | stmt i =>
    have hstmt : p.stmt? ⟨k, i⟩ = some s := (p.stmtAt?_stmt k i).symm.trans hs
    rcases hv with hv | hv
    · exact (hp.owns_def hstmt hv).lt
    · exact (hp.owns_use hstmt hv).lt

theorem Body.lt_of_stmt? (h : b.stmt? i = some s) : i < b.size :=
  (Array.getElem?_eq_some_iff.mp h).1

namespace Cfg

theorem build_eq (hb : p.body? m = some b) : Cfg.build p m = .ok (ofBody m b) := by
  unfold Cfg.build Program.requireBody
  rw [Program.getBody_eq (Program.lt_of_body? hb), hb]
  rfl

theorem build_ok_iff {c : Cfg} :
    Cfg.build p m = .ok c ↔ ∃ b, p.body? m = some b ∧ c = ofBody m b := by
  constructor
  · intro h
    obtain ⟨b, hrequired, h⟩ := bind_ok_iff.mp h
    obtain ⟨body, hbody, hsome⟩ := bind_ok_iff.mp hrequired
    cases h
    cases body with
    | none => cases hs : p.getSignature m <;> rw [hs] at hsome <;> cases hsome
    | some b' =>
      cases hsome
      exact ⟨b, (Program.getBody_ok_iff.mp hbody).2, rfl⟩
  · rintro ⟨b, hb, rfl⟩
    exact build_eq hb

theorem mem_nodes : n ∈ (ofBody m b).graph.nodes ↔
    n = .entry m ∨ n = .exit m ∨ ∃ i < b.size, n = .stmt m i := by
  simp only [ofBody, List.mem_append, List.mem_cons, List.mem_map, List.mem_range,
    List.not_mem_nil, or_false]
  constructor
  · intro h
    rcases h with (h | ⟨i, hi, rfl⟩) | h
    · exact .inl h
    · exact .inr (.inr ⟨i, hi, rfl⟩)
    · exact .inr (.inl h)
  · intro h
    rcases h with h | h | ⟨i, hi, rfl⟩
    · exact .inl (.inl h)
    · exact .inr h
    · exact .inl (.inr ⟨i, hi, rfl⟩)

theorem method_of_mem_nodes (hn : n ∈ (ofBody m b).graph.nodes) : n.method = m := by
  rcases mem_nodes.mp hn with rfl | rfl | ⟨i, _, rfl⟩ <;> rfl

theorem nodeAt_mem (m : MethodId) (b : Body) (i : Nat) :
    nodeAt m b.size i ∈ (ofBody m b).graph.nodes := by
  unfold nodeAt
  split
  · next h => exact mem_nodes.mpr (.inr (.inr ⟨i, h, rfl⟩))
  · exact mem_nodes.mpr (.inr (.inl rfl))

theorem mem_edges : e ∈ (ofBody m b).graph.edges ↔
    e = .within (.entry m) (nodeAt m b.size 0) .entry ∨
      ∃ i s, b.stmt? i = some s ∧ e ∈ edgesOf m b.size i s := by
  simp only [ofBody, List.mem_cons, List.mem_flatMap, Prod.exists, Program.mem_indexed]

/-- An edge out of a statement goes to a position of the body or past its end. -/
theorem of_mem_edgesOf (h : e ∈ edgesOf m b.size i s) :
    ∃ t flow, e = .within (.stmt m i) (nodeAt m b.size t) flow := by
  cases s with
  | goto t | assign x e | store l v | invoke r c | nop => exact ⟨_, _, List.mem_singleton.mp h⟩
  | branch c t =>
    rcases List.mem_cons.mp h with rfl | h
    · exact ⟨_, _, rfl⟩
    · exact ⟨_, _, List.mem_singleton.mp h⟩
  | switch v cases default =>
    rcases List.mem_append.mp h with h | h
    · obtain ⟨c, _, rfl⟩ := List.mem_map.mp h
      exact ⟨_, _, rfl⟩
    · exact ⟨_, _, List.mem_singleton.mp h⟩
  | ret v =>
    refine ⟨b.size, .ret, ?_⟩
    rw [List.mem_singleton.mp h]
    unfold nodeAt
    rw [if_neg (Nat.lt_irrefl _)]

/-- The edges out of a statement are its own. -/
theorem mem_edgesOf (hs : b.stmt? i = some s) : e ∈ edgesOf m b.size i s ↔
    e ∈ (ofBody m b).graph.edges ∧ e.source = .stmt m i := by
  have hsource : ∀ {j s e}, e ∈ edgesOf m b.size j s → e.source = .stmt m j := by
    intro j s e he
    obtain ⟨t, flow, rfl⟩ := of_mem_edgesOf he
    rfl
  constructor
  · intro he
    exact ⟨mem_edges.mpr (.inr ⟨i, s, hs, he⟩), hsource he⟩
  · intro ⟨he, hi⟩
    rcases mem_edges.mp he with rfl | ⟨j, s', hs', he⟩
    · cases hi
    · have hij : j = i := by
        rw [hsource he] at hi
        cases hi
        rfl
      subst hij
      rw [hs] at hs'
      cases hs'
      exact he

theorem closed_ofBody (m : MethodId) (b : Body) : (ofBody m b).graph.Closed := by
  intro e he
  rcases mem_edges.mp he with rfl | ⟨i, s, hs, he⟩
  · exact ⟨mem_nodes.mpr (.inl rfl), nodeAt_mem m b 0⟩
  · obtain ⟨t, flow, rfl⟩ := of_mem_edgesOf he
    exact ⟨mem_nodes.mpr (.inr (.inr ⟨i, Body.lt_of_stmt? hs, rfl⟩)), nodeAt_mem m b t⟩

/-- No edge goes back to the entry, and none leaves the exit. -/
theorem target_ne_entry {k : MethodId} (he : e ∈ (ofBody m b).graph.edges) :
    e.target ≠ .entry k := by
  have hne : ∀ t, nodeAt m b.size t ≠ .entry k := by
    intro t
    unfold nodeAt
    split <;> exact nofun
  rcases mem_edges.mp he with rfl | ⟨i, s, hs, he⟩
  · exact hne 0
  · obtain ⟨t, flow, rfl⟩ := of_mem_edgesOf he
    exact hne t

theorem kind_of_mem_edges (he : e ∈ (ofBody m b).graph.edges) :
    ∃ flow, e.label.kind = .within flow := by
  rcases mem_edges.mp he with rfl | ⟨i, s, _, he⟩
  · exact ⟨_, rfl⟩
  · obtain ⟨t, flow, rfl⟩ := of_mem_edgesOf he
    exact ⟨flow, rfl⟩

theorem site_of_mem_edges (he : e ∈ (ofBody m b).graph.edges) : e.label.site = none := by
  rcases mem_edges.mp he with rfl | ⟨i, s, _, he⟩
  · rfl
  · obtain ⟨t, flow, rfl⟩ := of_mem_edgesOf he
    rfl

theorem source_ne_exit (he : e ∈ (ofBody m b).graph.edges) : e.source ≠ .exit m := by
  rcases mem_edges.mp he with rfl | ⟨i, s, hs, he⟩
  · exact nofun
  · obtain ⟨t, flow, rfl⟩ := of_mem_edgesOf he
    exact nofun

end Cfg
end ProgramAnalysis
