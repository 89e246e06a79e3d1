import ProgramAnalysis.Proofs.Dataflow.LeastSolution
import ProgramAnalysis.Proofs.Liveness.Fixpoint

/-! Liveness is exact. A variable is live after a node just when some path ahead reads it and does
not define it before. The paths bound the equations from above, so that the least solution has no
more; along a path the equations hand the variable back, so that it has no less. -/
namespace ProgramAnalysis

namespace Program

def ReadsAt (p : Program) (n : Node) (v : VarId) : Prop := ∃ s, p.stmtAt? n = some s ∧ v ∈ s.uses

def DefinesAt (p : Program) (n : Node) (v : VarId) : Prop :=
  ∃ s, p.stmtAt? n = some s ∧ s.def? = some v

end Program

theorem Graph.mem_succs {ν ε : Type} [DecidableEq ν] {g : Graph ν ε} {k l : ν} :
    l ∈ g.succs k ↔ ∃ e ∈ g.edges, e.source = k ∧ e.target = l := by
  simp [Graph.succs, Graph.edgesFrom, and_assoc]

namespace Liveness

variable {p : Program} {m : MethodId} {b : Body} {g : FlowGraph} {v : VarId} {n k : Node}
  {path : List Node} {live : VarSet}

/-- The nodes of a path from `n` on that ends where `v` is read, and has `v` defined nowhere before.
What happens at `n` itself does not count. -/
structure ReadAhead (p : Program) (g : FlowGraph) (v : VarId) (n : Node) (path : List Node) :
    Prop where
  linked : (n :: path).IsChain fun k l => l ∈ g.succs k
  read : ∃ last, path.getLast? = some last ∧ p.ReadsAt last v
  clear : ∀ k ∈ path.dropLast, ¬ p.DefinesAt k v

/-! ### Paths -/

theorem readAhead_singleton : ReadAhead p g v n [k] ↔ k ∈ g.succs n ∧ p.ReadsAt k v := by
  refine ⟨fun h => ?_, fun ⟨hk, hread⟩ => ⟨List.isChain_pair.mpr hk, ⟨k, rfl, hread⟩, nofun⟩⟩
  obtain ⟨last, hlast, hread⟩ := h.read
  cases hlast
  exact ⟨List.isChain_pair.mp h.linked, hread⟩

theorem readAhead_cons (hpath : path ≠ []) : ReadAhead p g v n (k :: path) ↔
    k ∈ g.succs n ∧ ¬ p.DefinesAt k v ∧ ReadAhead p g v k path := by
  obtain ⟨l, rest, rfl⟩ := List.exists_cons_of_ne_nil hpath
  constructor
  · intro ⟨hlinked, hread, hclear⟩
    obtain ⟨hk, hrest⟩ := List.isChain_cons_cons.mp hlinked
    rw [List.dropLast_cons_cons, List.forall_mem_cons] at hclear
    rw [List.getLast?_cons_cons] at hread
    exact ⟨hk, hclear.1, hrest, hread, hclear.2⟩
  · intro ⟨hk, hdef, hlinked, hread, hclear⟩
    refine ⟨List.isChain_cons_cons.mpr ⟨hk, hlinked⟩, ?_, ?_⟩
    · rw [List.getLast?_cons_cons]
      exact hread
    · rw [List.dropLast_cons_cons, List.forall_mem_cons]
      exact ⟨hdef, hclear⟩

/-- A path ahead starts at a successor, which reads the variable or has a path of its own. -/
theorem exists_readAhead_iff : (∃ path, ReadAhead p g v n path) ↔
    ∃ k ∈ g.succs n, p.ReadsAt k v ∨ ¬ p.DefinesAt k v ∧ ∃ path, ReadAhead p g v k path := by
  constructor
  · rintro ⟨_ | ⟨k, _ | ⟨l, rest⟩⟩, h⟩
    · obtain ⟨last, hlast, -⟩ := h.read
      cases hlast
    · obtain ⟨hk, hread⟩ := readAhead_singleton.mp h
      exact ⟨k, hk, .inl hread⟩
    · obtain ⟨hk, hdef, hrest⟩ := (readAhead_cons (List.cons_ne_nil l rest)).mp h
      exact ⟨k, hk, .inr ⟨hdef, _, hrest⟩⟩
  · rintro ⟨k, hk, hread | ⟨hdef, path, hpath⟩⟩
    · exact ⟨[k], readAhead_singleton.mpr ⟨hk, hread⟩⟩
    · refine ⟨k :: path, (readAhead_cons ?_).mpr ⟨hk, hdef, hpath⟩⟩
      rintro rfl
      obtain ⟨last, hlast, -⟩ := hpath.read
      cases hlast

/-! ### Facts -/

theorem mem_transfer :
    v ∈ transfer p n live ↔ v ∈ live ∧ ¬ p.DefinesAt n v ∨ p.ReadsAt n v := by
  unfold transfer Program.DefinesAt Program.ReadsAt
  cases p.stmtAt? n with
  | none => simp
  | some s => simp [mem_before]

theorem monotone (p : Program) (g : FlowGraph) : Dataflow.Monotone g (analysis p) where
  transfer n _ x y hle := by
    rw [le_iff] at hle ⊢
    intro v hv
    change v ∈ transfer p n y
    refine mem_transfer.mpr ((mem_transfer.mp hv).imp_left fun ⟨hx, hdef⟩ => ?_)
    exact ⟨hle v hx, hdef⟩
  carry _ _ _ _ hle := hle

open scoped Classical in
/-- The variables that some path ahead reads. -/
noncomputable def ahead (p : Program) (g : FlowGraph) (n : Node) : VarSet :=
  .ofList (p.varIds.filter fun v => decide (∃ path, ReadAhead p g v n path))

theorem mem_ahead (hp : p.Accepted) : v ∈ ahead p g n ↔ ∃ path, ReadAhead p g v n path := by
  classical
  unfold ahead
  rw [HandleSet.mem_ofList, List.mem_filter, decide_eq_true_iff, and_iff_right_iff_imp]
  intro ⟨path, h⟩
  obtain ⟨last, -, s, hs, hv⟩ := h.read
  exact List.mem_map.mpr ⟨v.index, List.mem_range.mpr (hp.lt_of_stmtAt? hs (.inr hv)), rfl⟩

/-- The paths bound the equations. -/
theorem bounds_ahead (hp : p.Accepted) (g : FlowGraph) :
    Dataflow.Bounds g (analysis p) (ahead p g) fun n => transfer p n (ahead p g n) where
  start n _ := by
    rw [le_iff]
    unfold Dataflow.startFact
    split <;> exact fun v hv => absurd hv (HandleSet.not_mem_empty v)
  edge e he := by
    rw [le_iff]
    intro v hv
    change v ∈ transfer p e.target (ahead p g e.target) at hv
    change v ∈ ahead p g e.source
    rw [mem_ahead hp, exists_readAhead_iff]
    rw [mem_transfer, mem_ahead hp] at hv
    exact ⟨e.target, Graph.mem_succs.mpr ⟨e, he, rfl, rfl⟩, hv.symm.imp_right And.symm⟩
  transfer _ _ := le_iff.mpr fun _ hv => hv

/-- Facts above the equations hold the variable all along a path that reads it. -/
theorem mem_of_readAhead {gathered carried : Node → VarSet} (hg : g.Closed)
    (hb : Dataflow.Bounds g (analysis p) gathered carried) (h : ReadAhead p g v n path) :
    v ∈ gathered n := by
  have hback : ∀ {n k}, k ∈ g.succs n → v ∈ transfer p k (gathered k) → v ∈ gathered n := by
    intro n k hk hv
    obtain ⟨e, he, rfl, rfl⟩ := Graph.mem_succs.mp hk
    exact le_iff.mp (hb.edge e he) v (le_iff.mp (hb.transfer e.target (hg e he).2) v hv)
  induction path generalizing n with
  | nil =>
    obtain ⟨last, hlast, -⟩ := h.read
    cases hlast
  | cons k path ih =>
    by_cases hpath : path = []
    · subst hpath
      obtain ⟨hk, hread⟩ := readAhead_singleton.mp h
      exact hback hk (mem_transfer.mpr (.inr hread))
    · obtain ⟨hk, hdef, hrest⟩ := (readAhead_cons hpath).mp h
      exact hback hk (mem_transfer.mpr (.inl ⟨ih hrest, hdef⟩))

/-- What is live after a node, and what before it. -/
structure Exact (p : Program) (g : FlowGraph) (n : Node) (out inn : VarSet) : Prop where
  after : ∀ v, v ∈ out ↔ ∃ path, ReadAhead p g v n path
  before : ∀ v, v ∈ inn ↔ v ∈ out ∧ ¬ p.DefinesAt n v ∨ p.ReadsAt n v

theorem solve_exact (hp : p.Accepted) (m : MethodId) (b : Body) :
    ∃ ins outs, (Dataflow.solve (Cfg.ofBody m b).graph (analysis p)).Gives (Cfg.ofBody m b).graph
        ins outs ∧
      ∀ n ∈ (Cfg.ofBody m b).graph.nodes, Exact p (Cfg.ofBody m b).graph n (outs n) (ins n) := by
  have hl := laws hp m b
  have hclosed := Cfg.closed_ofBody m b
  have hheeded : ∀ e ∈ (Cfg.ofBody m b).graph.edges,
      Dataflow.Heeded (Cfg.ofBody m b).graph (analysis p) e :=
    fun e he => .inl fun h => Cfg.source_ne_exit he (List.mem_singleton.mp h)
  obtain ⟨hbalanced, hleast⟩ := Dataflow.run_balanced hl hclosed (monotone p _) hheeded rfl
  have hgives := Dataflow.solve_gives hl hclosed
  refine ⟨_, _, hgives, fun n hn => ⟨fun v => ⟨fun hv => ?_, fun ⟨path, hpath⟩ => ?_⟩,
    fun v => ?_⟩⟩
  · have hbelow := (hleast _ _ (bounds_ahead hp _)).gathered n hn _ (hgives n hn).2
    exact (mem_ahead hp).mp (le_iff.mp hbelow v hv)
  · exact mem_of_readAhead hclosed (hbalanced.bounds hl hclosed) hpath
  · have htransfer : Dataflow.factAt (analysis p) (Dataflow.solve _ (analysis p)).ins n =
        transfer p n (Dataflow.factAt (analysis p) (Dataflow.solve _ (analysis p)).outs n) :=
      hbalanced.transfer n hn
    rw [htransfer, mem_transfer]

/-- The analysis of a method with a body succeeds. At each node of its graph, a variable is live
after the node if and only if some path from there reads it before it is defined; live before the
node is what is live after it and not defined there, with what is read there. -/
theorem analyze_exact (hp : p.Accepted) (hb : p.body? m = some b) :
    ∃ c facts ins outs, Cfg.build p m = .ok c ∧ (analyze p m).result = .ok facts ∧
      facts.Gives c.graph ins outs ∧ ∀ n ∈ c.graph.nodes, Exact p c.graph n (outs n) (ins n) := by
  have hbuild : Cfg.build p m = .ok (Cfg.ofBody m b) := Cfg.build_eq hb
  obtain ⟨ins, outs, hgives, hexact⟩ := solve_exact hp m b
  exact ⟨_, _, ins, outs, hbuild, Traced.bind_ok_iff.mpr ⟨_, hbuild, rfl⟩, hgives, hexact⟩

theorem analyze_exact_sample : Program.sample.Accepted ∧
    Program.sample.body? ⟨1⟩ = some .sample ∧
    ∃ c facts ins outs, Cfg.build .sample ⟨1⟩ = .ok c ∧ (analyze .sample ⟨1⟩).result = .ok facts ∧
      facts.Gives c.graph ins outs ∧
      ∀ n ∈ c.graph.nodes, Exact .sample c.graph n (outs n) (ins n) :=
  ⟨Program.accepted_sample, rfl, analyze_exact Program.accepted_sample rfl⟩

/-- In the loop of the sample body, the variable that it raises stays live. -/
example : ReadAhead .sample (Cfg.ofBody ⟨1⟩ .sample).graph ⟨2⟩ (.stmt ⟨1⟩ 7) [.stmt ⟨1⟩ 6] :=
  readAhead_singleton.mpr ⟨by decide, _, rfl, by decide⟩

end Liveness
end ProgramAnalysis
