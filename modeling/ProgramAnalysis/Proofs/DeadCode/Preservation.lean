import ProgramAnalysis.Proofs.Constant.Lattice
import ProgramAnalysis.Proofs.DeadCode.Reached
import ProgramAnalysis.Proofs.Execution.World
import ProgramAnalysis.Proofs.Liveness.Fixpoint

/-! Dead statements can be removed, all at once: the body without them does the same along every run
that the constants are sound for. The two runs agree on the variables that are live, and never come
to a statement that is not reached. -/
namespace ProgramAnalysis

/-- The body with the statements at `dead` replaced by nothing. -/
def Body.blank (b : Body) (dead : List Nat) : Body :=
  { b with stmts := b.stmts.mapIdx fun i s => if i ∈ dead then .nop else s }

namespace Body

variable {b : Body} {dead : List Nat} {i : Nat}

theorem size_blank (b : Body) (dead : List Nat) : (b.blank dead).size = b.size := Array.size_mapIdx

theorem stmt?_blank :
    (b.blank dead).stmt? i = (b.stmt? i).map fun s => if i ∈ dead then .nop else s := by
  unfold blank stmt?
  simp

end Body

namespace DeadCode

variable {p : Program} {m : MethodId} {b : Body} {W : World} {σ₀ σ τ σ' : W.Store}
  {constants : Constant.Facts} {live : Liveness.Facts} {dead : List Nat} {i : Nat} {s : Stmt}
  {flow : Flow} {k : Node} {w : Option W.Act}

/-- The constants are those of the runs from `σ₀`. -/
def SoundFrom (W : World) (m : MethodId) (b : Body) (constants : Constant.Facts) (σ₀ : W.Store) :
    Prop :=
  ∀ trace n σ, Run W.dynamics m b σ₀ trace (some (n, σ)) →
    ∀ f, constants.ins.get? n = some f → ∀ v n, f.get v = .constant n → σ v = .int n

/-! ### Runs stay within what is reached -/

theorem exists_run_of_evalBinary {op : BinOp} {x y : Value} {n : Int32}
    (h : Value.evalBinary op x y = .constant n) :
    ∃ i j, x = .constant i ∧ y = .constant j ∧ op.run i j = some n := by
  unfold Value.evalBinary at h
  split at h
  · cases h
  · next hdivision =>
    cases x with
    | undef => cases y <;> cases h
    | nac => cases h
    | constant i =>
      cases y with
      | undef | nac => cases h
      | constant j =>
        cases h
        refine ⟨i, j, rfl, rfl, ?_⟩
        rw [Value.run_eq, if_neg]
        intro ⟨hop, hj⟩
        exact hdivision (by simp [hop, hj])

theorem feasibleFrom_branch {f : Fact} {edges : List FlowEdge} {e : FlowEdge} {c : Binary} {t : Nat}
    {o : W.Outcome} (hf : ∀ v n, f.get v = .constant n → σ v = .int n)
    (hcompletes : W.Completes σ (.branch c t) o) (hselects : W.Selects σ (.branch c t) o flow)
    (he : e ∈ edges) (hkind : e.label.kind = .within flow) :
    e ∈ feasibleFrom f edges (.branch c t) := by
  refine mem_feasibleFrom_branch (fun n heval => ?_) he hkind
  obtain ⟨x, y, hx, hy, hrun⟩ := exists_run_of_evalBinary heval
  have hgave : o = .gave (.int n) := by
    have hcomputes := hcompletes.1
    rw [hf _ _ hx, hf _ _ hy] at hcomputes
    change o = ((c.op.run x y).map Datum.int).elim .thrown .gave at hcomputes
    rw [hcomputes, hrun]
    rfl
  obtain ⟨d, hd, hflow⟩ := hselects
  rw [hgave] at hd
  cases hd
  rcases hflow with ⟨hne, hflow⟩ | ⟨hzero, hflow⟩
  · rw [hflow, if_neg hne]
  · rw [hflow, if_pos (not_not.mp hzero)]

theorem feasibleFrom_switch {f : Fact} {edges : List FlowEdge} {e : FlowEdge} {v : VarId}
    {cases : List (Int32 × Nat)} {t : Nat} {o : W.Outcome}
    (hf : ∀ v n, f.get v = .constant n → σ v = .int n)
    (hcases : ∀ e ∈ edges, ∀ n, e.label.kind = .within (.switchCase n) → n ∈ cases.map (·.1))
    (hselects : W.Selects σ (.switch v cases t) o flow) (he : e ∈ edges)
    (hkind : e.label.kind = .within flow) : e ∈ feasibleFrom f edges (.switch v cases t) := by
  refine mem_feasibleFrom_switch hcases (fun n hv => ?_) he hkind
  have hint : σ v = .int n := hf v n hv
  rcases hselects with ⟨c, _, hcase, hflow⟩ | ⟨hnone, hflow⟩
  · rw [hint] at hcase
    have hcn : n = c := hcase
    exact .inl (hcn ▸ hflow)
  · refine .inr ⟨fun hmem => hnone n hmem ?_, hflow⟩
    rw [hint]
    rfl

/-- The cases of a switch are on its edges. -/
theorem mem_cases {v : VarId} {cases : List (Int32 × Nat)} {t : Nat} {e : FlowEdge} {n : Int32}
    (hs : b.stmt? i = some (.switch v cases t))
    (he : e ∈ (Cfg.ofBody m b).graph.edgesFrom (.stmt m i))
    (hkind : e.label.kind = .within (.switchCase n)) : n ∈ cases.map (·.1) := by
  have hof : e ∈ Cfg.edgesOf m b.size i (.switch v cases t) :=
    (Cfg.mem_edgesOf hs).mpr (by simpa [Graph.edgesFrom] using he)
  rcases List.mem_append.mp hof with hof | hof
  · obtain ⟨c, hc, rfl⟩ := List.mem_map.mp hof
    change EdgeKind.within (.switchCase c.1) = .within (.switchCase n) at hkind
    cases hkind
    exact List.mem_map_of_mem hc
  · rw [List.mem_singleton.mp hof] at hkind
    cases hkind

/-- The edge that a run takes is feasible. -/
theorem feasible_of_taken (hb : p.body? m = some b) (hs : b.stmt? i = some s)
    (hsound : ∀ f, constants.ins.get? (.stmt m i) = some f →
      ∀ v n, f.get v = .constant n → σ v = .int n)
    (hexec : W.dynamics s σ w (some (flow, σ')))
    (hedge : Edge.within (.stmt m i) k flow ∈ (Cfg.ofBody m b).graph.edges) :
    Edge.within (.stmt m i) k flow ∈ feasible p (Cfg.ofBody m b) constants (.stmt m i) := by
  have hfrom : Edge.within (.stmt m i) k flow ∈ (Cfg.ofBody m b).graph.edgesFrom (.stmt m i) :=
    List.mem_filter.mpr ⟨hedge, decide_eq_true rfl⟩
  have hat : p.stmtAt? (.stmt m i) = some s := by
    rw [Program.stmtAt?_stmt, hb]
    exact hs
  obtain ⟨o, hcompletes, _, ho⟩ := hexec
  have hselects : W.Selects σ s o flow := by
    rcases ho with ⟨_, hr⟩ | ⟨_, flow', hselects, hr⟩
    · cases hr
    · cases hr
      exact hselects
  unfold feasible
  simp only [hat]
  cases hf : constants.ins.get? (.stmt m i) with
  | none => exact hfrom
  | some f =>
    cases s with
    | branch c t => exact feasibleFrom_branch (hsound f hf) hcompletes hselects hfrom rfl
    | switch v cases t =>
      exact feasibleFrom_switch (hsound f hf) (fun e he n => mem_cases hs he) hselects hfrom rfl
    | assign x e | store l y | invoke r c | goto t | ret y | nop => exact hfrom

theorem feasible_of_entered (hedge : Edge.within (.entry m) k flow ∈ (Cfg.ofBody m b).graph.edges) :
    Edge.within (.entry m) k flow ∈ feasible p (Cfg.ofBody m b) constants (.entry m) := by
  have hfrom : Edge.within (.entry m) k flow ∈ (Cfg.ofBody m b).graph.edgesFrom (.entry m) :=
    List.mem_filter.mpr ⟨hedge, decide_eq_true rfl⟩
  unfold feasible
  rw [Program.stmtAt?_entry]
  cases constants.ins.get? (.entry m) <;> exact hfrom

/-! ### The statements removed -/

theorem mayThrow_eq (e : Expr) : e.mayThrow = !pureExpr e := by
  cases e <;> simp [Expr.mayThrow, pureExpr]

/-- What `detect` finds: statements that are not reached, and assignments that neither throw nor
allocate to variables that are not live. -/
theorem detect_spec (hb : p.body? m = some b) (constants : Constant.Facts)
    (live : Liveness.Facts) : Traced.Returns
    (detect p (Cfg.ofBody m b) constants live) fun dead => ∀ i s, b.stmt? i = some s → i ∈ dead →
      Node.stmt m i ∉ reached p (Cfg.ofBody m b) constants ∨
        ∃ x e, s = .assign x e ∧ e.mayThrow = false ∧
          ∀ out, live.outs.get? (.stmt m i) = some out → x ∉ out := by
  refine (detect_returns p (Cfg.ofBody m b) constants live).mono fun dead hdead i s hs hi => ?_
  have hat : p.stmtAt? (.stmt m i) = some s := by
    rw [Program.stmtAt?_stmt, hb]
    exact hs
  obtain ⟨_, hunreached | hassignment⟩ := (hdead i).mp hi
  · exact .inl hunreached
  · refine .inr ?_
    change deadAssignment p live (.stmt m i) = true at hassignment
    unfold deadAssignment at hassignment
    rw [hat] at hassignment
    cases s with
    | assign x e =>
      obtain ⟨hpure, hnot⟩ := Bool.and_eq_true_iff.mp hassignment
      refine ⟨x, e, rfl, by rw [mayThrow_eq, hpure]; rfl, fun out hout hx => ?_⟩
      rw [hout, Option.any_some, HandleSet.contains_iff.mpr hx] at hnot
      cases hnot
    | store l y | invoke r c | branch c t | goto t | switch y cs d | ret y | nop => cases hassignment

/-- An edge of the body is one of the body without dead statements. -/
theorem mem_edges_blank {e : FlowEdge} {s' : Stmt} (hs : b.stmt? i = some s)
    (hs' : (b.blank dead).stmt? i = some s')
    (hsame : Cfg.edgesOf m b.size i s = Cfg.edgesOf m b.size i s') (hsource : e.source = .stmt m i)
    (he : e ∈ (Cfg.ofBody m b).graph.edges) : e ∈ (Cfg.ofBody m (b.blank dead)).graph.edges := by
  have hof := (Cfg.mem_edgesOf hs).mpr ⟨he, hsource⟩
  rw [hsame, ← b.size_blank dead] at hof
  exact ((Cfg.mem_edgesOf hs').mp hof).1

/-! ### Simulation -/

/-- The stores agree on what is live before the node. -/
def AgreeAt (live : Liveness.Facts) (n : Node) (σ τ : W.Store) : Prop :=
  ∀ vs, live.ins.get? n = some vs → ∀ v ∈ vs, σ v = τ v

section Simulation

variable (hlive : Liveness.Covers b m live)
include hlive

/-- Stores that agree on what is live after a node agree on what is live before the next. -/
theorem agreeAt_of_edge {e : FlowEdge} (he : e ∈ (Cfg.ofBody m b).graph.edges)
    (hagree : ∀ out, live.outs.get? e.source = some out → ∀ v ∈ out, σ v = τ v) :
    AgreeAt live e.target σ τ := by
  intro vs hvs v hv
  obtain ⟨out, next, hout, hnext, hsub⟩ := hlive.edge he
  rw [hvs] at hnext
  cases hnext
  exact hagree out hout v (hsub v hv)

theorem agree_uses (hs : b.stmt? i = some s) (hagree : AgreeAt live (.stmt m i) σ τ) :
    ∀ v ∈ s.uses, σ v = τ v := by
  obtain ⟨out, _, hin⟩ := hlive.stmt hs
  exact fun v hv => hagree _ hin v (Liveness.mem_before.mpr (.inr hv))

theorem agree_kept (hs : b.stmt? i = some s) (hagree : AgreeAt live (.stmt m i) σ τ) :
    ∀ out, live.outs.get? (.stmt m i) = some out → ∀ v ∈ out, s.def? = some v ∨ σ v = τ v := by
  intro out hout v hv
  obtain ⟨out', hout', hin⟩ := hlive.stmt hs
  rw [hout] at hout'
  cases hout'
  by_cases hdef : s.def? = some v
  · exact .inl hdef
  · exact .inr (hagree _ hin v (Liveness.mem_before.mpr (.inl ⟨hv, hdef⟩)))

/-- A statement that stays does the same in the other store. -/
theorem step_kept {t : W.Store} (hs : b.stmt? i = some s) (hi : i ∉ dead)
    (hagree : AgreeAt live (.stmt m i) σ τ) (hexec : W.dynamics s σ w (some (flow, t)))
    (hedge : Edge.within (.stmt m i) k flow ∈ (Cfg.ofBody m b).graph.edges) {trace}
    (hrun : Run W.dynamics m (b.blank dead) σ₀ trace (some (.stmt m i, τ))) :
    ∃ u, Run W.dynamics m (b.blank dead) σ₀ (trace ++ [⟨.stmt m i, some w, some flow⟩])
      (some (k, u)) ∧ AgreeAt live k t u := by
  have hs' : (b.blank dead).stmt? i = some s := by
    rw [Body.stmt?_blank, hs, Option.map_some, if_neg hi]
  obtain ⟨u, hexec', hu⟩ := World.dynamics_some_congr hexec (agree_uses hlive hs hagree)
  refine ⟨u, .step hrun hs' hexec' (mem_edges_blank hs hs' rfl rfl hedge), ?_⟩
  exact agreeAt_of_edge hlive hedge fun out hout v hv =>
    hu v (agree_kept hlive hs hagree out hout v hv)

/-- In place of a dead assignment nothing is done, and nothing was to be observed. -/
theorem step_removed {x : VarId} {e : Expr} {t : W.Store} (hs : b.stmt? i = some (.assign x e))
    (hi : i ∈ dead) (he : e.mayThrow = false)
    (hx : ∀ out, live.outs.get? (.stmt m i) = some out → x ∉ out)
    (hagree : AgreeAt live (.stmt m i) σ τ)
    (hexec : W.dynamics (.assign x e) σ w (some (flow, t)))
    (hedge : Edge.within (.stmt m i) k flow ∈ (Cfg.ofBody m b).graph.edges) {trace}
    (hrun : Run W.dynamics m (b.blank dead) σ₀ trace (some (.stmt m i, τ))) :
    ∃ u, Run W.dynamics m (b.blank dead) σ₀ (trace ++ [⟨.stmt m i, some w, some flow⟩])
      (some (k, u)) ∧ AgreeAt live k t u := by
  have hs' : (b.blank dead).stmt? i = some .nop := by
    rw [Body.stmt?_blank, hs, Option.map_some, if_pos hi]
  obtain ⟨rfl, flow', t', heq, hframe⟩ := World.dynamics_assign hexec he
  cases heq
  refine ⟨τ, .step hrun hs' (World.dynamics_nop τ flow) (mem_edges_blank hs hs' rfl rfl hedge), ?_⟩
  refine agreeAt_of_edge hlive hedge fun out hout v hv => ?_
  have hxv : x ≠ v := fun h => hx out hout (h ▸ hv)
  rw [hframe v hxv]
  refine (agree_kept hlive hs hagree out hout v hv).resolve_left fun hdef => ?_
  exact hxv (Option.some.inj hdef)

/-- The entry reads nothing and changes nothing. -/
theorem step_entered (hagree : AgreeAt live (.entry m) σ τ)
    (hedge : Edge.within (.entry m) k flow ∈ (Cfg.ofBody m b).graph.edges) {trace}
    (hrun : Run W.dynamics m (b.blank dead) σ₀ trace (some (.entry m, τ))) :
    Run W.dynamics m (b.blank dead) σ₀ (trace ++ [⟨.entry m, none, some flow⟩]) (some (k, τ)) ∧
      AgreeAt live k σ τ := by
  constructor
  · refine .enter hrun ?_
    rcases Cfg.mem_edges.mp hedge with heq | ⟨i, s, _, hof⟩
    · rw [heq, ← b.size_blank dead]
      exact Cfg.mem_edges.mpr (.inl rfl)
    · obtain ⟨t, flow', heq⟩ := Cfg.of_mem_edgesOf hof
      cases heq
  · obtain ⟨out, hout, hin⟩ := hlive.entry
    refine agreeAt_of_edge hlive hedge fun out' hout' v hv => ?_
    change live.outs.get? (.entry m) = some out' at hout'
    rw [hout] at hout'
    cases hout'
    exact hagree out hin v hv

end Simulation

/-- Where the original run is, and where the run without dead statements is then. -/
def Follows (p : Program) (m : MethodId) (b : Body) (constants : Constant.Facts)
    (live : Liveness.Facts) (dead : List Nat) (σ₀ : W.Store) (trace : List (Visit (Option W.Act))) :
    Option (Node × W.Store) → Prop
  | some (n, σ) => n ∈ reached p (Cfg.ofBody m b) constants ∧
      ∃ τ, Run W.dynamics m (b.blank dead) σ₀ trace (some (n, τ)) ∧ AgreeAt live n σ τ
  | none => Run W.dynamics m (b.blank dead) σ₀ trace none

theorem follows (hb : p.body? m = some b) (hlive : Liveness.Covers b m live)
    (hsound : SoundFrom W m b constants σ₀)
    (hdead : ∀ i s, b.stmt? i = some s → i ∈ dead →
      Node.stmt m i ∉ reached p (Cfg.ofBody m b) constants ∨
        ∃ x e, s = .assign x e ∧ e.mayThrow = false ∧
          ∀ out, live.outs.get? (.stmt m i) = some out → x ∉ out)
    {trace : List (Visit (Option W.Act))} {final : Option (Node × W.Store)}
    (hrun : Run W.dynamics m b σ₀ trace final) :
    Follows p m b constants live dead σ₀ trace final := by
  obtain ⟨hentry, hclosed⟩ := reached_closed p constants m b
  induction hrun with
  | start => exact ⟨hentry, σ₀, .start, fun vs _ v _ => rfl⟩
  | @enter trace s k flow hrun hedge ih =>
    obtain ⟨hn, τ, hrun', hagree⟩ := ih
    have hfeasible : Edge.within (.entry m) k flow ∈
        feasible p (Cfg.ofBody m b) constants (.entry m) := feasible_of_entered hedge
    obtain ⟨hrun', hagree'⟩ := step_entered hlive hagree hedge hrun'
    exact ⟨hclosed _ hn _ hfeasible, τ, hrun', hagree'⟩
  | @step trace i stmt s t w k flow hrun hstmt hexec hedge ih =>
    obtain ⟨hn, τ, hrun', hagree⟩ := ih
    have hfeasible := feasible_of_taken hb hstmt (hsound _ _ _ hrun) hexec hedge
    refine ⟨hclosed _ hn _ hfeasible, ?_⟩
    by_cases hi : i ∈ dead
    · rcases hdead i stmt hstmt hi with hunreached | ⟨x, e, rfl, he, hx⟩
      · exact absurd hn hunreached
      · exact step_removed hlive hstmt hi he hx hagree hexec hedge hrun'
    · exact step_kept hlive hstmt hi hagree hexec hedge hrun'
  | @halt trace i stmt s w hrun hstmt hexec ih =>
    obtain ⟨hn, τ, hrun', hagree⟩ := ih
    have hi : i ∉ dead := by
      intro hi
      rcases hdead i stmt hstmt hi with hunreached | ⟨x, e, rfl, he, _⟩
      · exact hunreached hn
      · obtain ⟨_, flow, σ', hr, _⟩ := World.dynamics_assign hexec he
        cases hr
    have hstmt' : (b.blank dead).stmt? i = some stmt := by
      rw [Body.stmt?_blank, hstmt, Option.map_some, if_neg hi]
    exact .halt hrun' hstmt' (World.dynamics_none_congr hexec (agree_uses hlive hstmt hagree))

/-- Without the statements that `detect` finds, the body has for each run a run with the same trace:
the same nodes, the same flows between them, and the same acts there. -/
theorem detect_preserves (hp : p.Accepted) (hb : p.body? m = some b) (constants : Constant.Facts) :
    ∃ c live dead, Cfg.build p m = .ok c ∧ (Liveness.solveCfg p c).result = .ok live ∧
      (detect p c constants live).result = .ok dead ∧
      ∀ (W : World) (σ₀ : W.Store), SoundFrom W m b constants σ₀ →
        ∀ trace final, Run W.dynamics m b σ₀ trace final →
          ∃ final', Run W.dynamics m (b.blank dead) σ₀ trace final' ∧
            final'.map (·.1) = final.map (·.1) := by
  obtain ⟨live, hok, hlive⟩ := Liveness.solveCfg_covers hp hb
  obtain ⟨dead, hdetect, hdead⟩ := detect_spec hb constants live
  refine ⟨Cfg.ofBody m b, live, dead, Cfg.build_eq hb, hok, hdetect, ?_⟩
  intro W σ₀ hsound trace final hrun
  have hfollows := follows hb hlive hsound hdead hrun
  cases final with
  | none => exact ⟨none, hfollows, rfl⟩
  | some final =>
    obtain ⟨n, σ⟩ := final
    obtain ⟨_, τ, hrun', _⟩ := hfollows
    exact ⟨some (n, τ), hrun', rfl⟩

/-- That `i` is 1 where the sample branches on it. -/
def constantsSample : Constant.Facts :=
  ⟨Table.empty.insert (.stmt ⟨1⟩ 3) (Fact.empty.set ⟨7⟩ (.constant 1)), .empty, 0, []⟩

theorem soundFrom_sample (σ₀ : World.sample.Store) :
    SoundFrom World.sample ⟨1⟩ .sample constantsSample σ₀ := by
  intro trace n σ hrun f hf v k hk
  have hinto : ∀ e ∈ (Cfg.ofBody ⟨1⟩ .sample).graph.edges,
      e.target = .stmt ⟨1⟩ 3 → e.source = .stmt ⟨1⟩ 2 := by decide
  have hone : n = .stmt ⟨1⟩ 3 → σ ⟨7⟩ = .int 1 := by
    refine hrun.invariant (I := fun n σ => n = .stmt ⟨1⟩ 3 → σ ⟨7⟩ = .int 1) nofun ?_ ?_
    · intro s k flow _ hedge hk
      exact absurd (hinto _ hedge hk) nofun
    · intro i stmt s w flow t k _ hstmt hexec hedge hk
      have hi : i = 2 := by
        have hsource := hinto _ hedge hk
        cases hsource
        rfl
      subst hi
      cases hstmt
      obtain ⟨o, ⟨heval, _⟩, _, ho⟩ := hexec
      rcases ho with ⟨_, hr⟩ | ⟨_, flow', _, hr⟩
      · cases hr
      · cases hr
        cases heval
        rfl
  have hget : constantsSample.ins.get? n =
      if Node.stmt ⟨1⟩ 3 = n then some (Fact.empty.set ⟨7⟩ (.constant 1)) else none :=
    Table.get?_insert _ _ _ _
  rw [hget] at hf
  split at hf
  · next hn =>
    cases hf
    rw [Fact.get_set] at hk
    split at hk
    · next hv =>
      cases hk
      exact hv ▸ hone hn.symm
    · cases hk
  · cases hf

/-- In the sample, the run that takes the branch and passes over `c = i + n`. -/
theorem detect_preserves_sample : ∃ live dead trace τ,
    (Liveness.solveCfg .sample (Cfg.ofBody ⟨1⟩ .sample)).result = .ok live ∧
      (detect .sample (Cfg.ofBody ⟨1⟩ .sample) constantsSample live).result = .ok dead ∧
      Run World.sample.dynamics ⟨1⟩ (Body.sample.blank dead) (fun _ => .int 5) trace
        (some (.stmt ⟨1⟩ 6, τ)) := by
  obtain ⟨c, live, dead, hc, hlive, hdead, hpreserves⟩ :=
    detect_preserves Program.accepted_sample (m := ⟨1⟩) (b := .sample) rfl constantsSample
  cases hc
  have hedge : ∀ {i k s flow}, Body.sample.stmt? i = some s →
      Edge.within (.stmt ⟨1⟩ i) k flow ∈ Cfg.edgesOf ⟨1⟩ Body.sample.size i s →
      Edge.within (.stmt ⟨1⟩ i) k flow ∈ (Cfg.ofBody ⟨1⟩ .sample).graph.edges :=
    fun hs h => ((Cfg.mem_edgesOf hs).mp h).1
  have h₀ : Run World.sample.dynamics ⟨1⟩ .sample (fun _ => .int 5) _ (some (.stmt ⟨1⟩ 0, _)) :=
    .enter .start (Cfg.mem_edges.mpr (.inl rfl))
  have h₁ : Run World.sample.dynamics ⟨1⟩ .sample (fun _ => .int 5) _ (some (.stmt ⟨1⟩ 1, _)) :=
    .step h₀ rfl ⟨.gave (.other ()), ⟨trivial, nofun⟩, rfl, .inr ⟨nofun, .fallThrough, trivial, rfl⟩⟩
      (hedge rfl (List.mem_singleton.mpr rfl))
  have h₂ : Run World.sample.dynamics ⟨1⟩ .sample (fun _ => .int 5) _ (some (.stmt ⟨1⟩ 2, _)) :=
    .step h₁ rfl ⟨.gave (.other ()), nofun, rfl, .inr ⟨nofun, .fallThrough, trivial, rfl⟩⟩
      (hedge rfl (List.mem_singleton.mpr rfl))
  have h₃ : Run World.sample.dynamics ⟨1⟩ .sample (fun _ => .int 5) _ (some (.stmt ⟨1⟩ 3, _)) :=
    .step h₂ rfl ⟨.gave (.int 1), ⟨rfl, nofun⟩, rfl, .inr ⟨nofun, .fallThrough, trivial, rfl⟩⟩
      (hedge rfl (List.mem_singleton.mpr rfl))
  have h₅ : Run World.sample.dynamics ⟨1⟩ .sample (fun _ => .int 5) _ (some (.stmt ⟨1⟩ 5, _)) :=
    .step h₃ rfl ⟨.gave (.int 1), ⟨rfl, nofun⟩, rfl,
      .inr ⟨nofun, .ifTrue, ⟨.int 1, rfl, .inl ⟨(by decide : (1 : Int32) ≠ 0), rfl⟩⟩, rfl⟩⟩
      (hedge rfl List.mem_cons_self)
  have h₆ : Run World.sample.dynamics ⟨1⟩ .sample (fun _ => .int 5) _ (some (.stmt ⟨1⟩ 6, _)) :=
    .step h₅ rfl ⟨.gave (.int 6), ⟨rfl, nofun⟩, rfl, .inr ⟨nofun, .fallThrough, trivial, rfl⟩⟩
      (hedge rfl (List.mem_singleton.mpr rfl))
  obtain ⟨final, hrun, hnode⟩ := hpreserves World.sample _ (soundFrom_sample _) _ _ h₆
  cases final with
  | none => cases hnode
  | some final =>
    obtain ⟨n, τ⟩ := final
    cases hnode
    exact ⟨live, dead, _, τ, hlive, hdead, hrun⟩

end DeadCode
end ProgramAnalysis
