import ProgramAnalysis.Proofs.Constant.Soundness
import ProgramAnalysis.Proofs.DeadCode.Preservation
import ProgramAnalysis.Proofs.Execution.Frame

/-! What a run comes to is not dead, but for assignments without effect: as long as ints are computed
from ints, constants cover the run, and it takes feasible edges only. An int computed from anything
else is `undef` to the analysis, which then takes a constant from another path for its value. -/
namespace ProgramAnalysis.DeadCode

variable {p : Program} {m : MethodId} {b : Body} {W : World} {σ σ₀ τ : W.Frame}
  {constants : Constant.Facts} {f : Fact} {d : Datum W.Other} {v : VarId} {n : Int32} {i : Nat}
  {s : Stmt} {flow : Flow} {k : Node}

/-! ### Feasible steps -/

/-- A constant that covers the ints of a frame is the value there. -/
theorem eq_of_covers (hσ : p.Holds σ) (hf : f.Within p) (hcovers : f.Covers p σ.ints)
    (hv : σ v = some d) (hn : f.get v = .constant n) : d = .int n := by
  have hint : p.holdsInt v := hf v (by rw [hn]; nofun)
  obtain ⟨j, rfl, hj⟩ := World.Frame.exists_ints hσ hint hv
  rcases hcovers v j hint hj with h | h
  · rw [hn] at h
    cases h
  · rw [hn] at h
    cases h
    rfl

theorem feasible_of_selected (hb : p.body? m = some b) (hs : b.stmt? i = some s) (hσ : p.Holds σ)
    (hget : constants.ins.get? (.stmt m i) = some f) (hf : f.Within p)
    (hcovers : f.Covers p σ.ints) (hselects : σ.Selects s flow)
    (hedge : Edge.within (.stmt m i) k flow ∈ (Cfg.ofBody m b).graph.edges) :
    Edge.within (.stmt m i) k flow ∈ feasible p (Cfg.ofBody m b) constants (.stmt m i) := by
  have hfrom : Edge.within (.stmt m i) k flow ∈ (Cfg.ofBody m b).graph.edgesFrom (.stmt m i) :=
    List.mem_filter.mpr ⟨hedge, decide_eq_true rfl⟩
  have hat : p.stmtAt? (.stmt m i) = some s := by
    rw [Program.stmtAt?_stmt, hb]
    exact hs
  unfold feasible
  simp only [hget, hat]
  cases s with
  | branch c t =>
    refine mem_feasibleFrom_branch (fun n heval => ?_) hfrom rfl
    obtain ⟨j, l, hj, hl, hrun⟩ := exists_run_of_evalBinary heval
    obtain ⟨d, ⟨x, y, hx, hy, hyields⟩, hflow⟩ := hselects
    rw [eq_of_covers hσ hf hcovers hx hj, eq_of_covers hσ hf hcovers hy hl] at hyields
    have hd : some (.int n) = some d := by
      rw [← hyields, hrun]
      rfl
    cases hd
    rcases hflow with ⟨hne, rfl⟩ | ⟨hzero, rfl⟩
    · rw [if_neg hne]
    · rw [if_pos (not_not.mp hzero)]
  | switch v cases t =>
    refine mem_feasibleFrom_switch (fun e he n => mem_cases hs he) (fun n hn => ?_) hfrom rfl
    obtain ⟨d, hd, hflow⟩ := hselects
    rw [eq_of_covers hσ hf hcovers hd hn] at hflow
    rcases hflow with ⟨c, _, hcase, rfl⟩ | ⟨hnone, rfl⟩
    · have hcn : n = c := hcase
      exact .inl (congrArg _ hcn.symm)
    · exact .inr ⟨fun hmem => hnone n hmem rfl, rfl⟩
  | assign x e | store l y | invoke r c | goto t | ret y | nop => exact hfrom

/-! ### Runs stay within what is reached -/

/-- What the analysis knows of a run that has come to a node. -/
structure Tracks (p : Program) (m : MethodId) (b : Body) (constants : Constant.Facts) (n : Node)
    (σ : W.Frame) : Prop where
  holds : p.Holds σ
  reached : n ∈ reached p (Cfg.ofBody m b) constants
  covers : ∃ f, constants.ins.get? n = some f ∧ f.Covers p σ.ints

section Tracks

variable (hfixed : Dataflow.Fixed (Cfg.ofBody m b).graph (Constant.analysis p) (Fact.Within p)
  constants.ins constants.outs)
include hfixed

theorem tracks_start (hb : p.body? m = some b) (hopens : p.Opens b σ₀) :
    Tracks p m b constants (.entry m) σ₀ := by
  obtain ⟨hentry, -⟩ := reached_closed p constants m b
  obtain ⟨f, hf, _, hle, _⟩ := hfixed.defined (.entry m) (Cfg.mem_nodes.mpr (.inl rfl))
  rw [Constant.startFact_entry] at hle
  have hboundary : (Constant.boundary p (.entry m)).Covers p σ₀.ints := by
    intro v k hv hk
    have hassigned : σ₀ v ≠ none := by simp [World.Frame.ints_eq_some_iff.mp hk]
    have hparam : v ∈ Constant.paramsOf p m := by
      rw [Constant.paramsOf_eq hb]
      exact (hopens.assigned v hassigned).resolve_right fun h => h.2 hv
    refine .inl ?_
    rw [Constant.get_boundary]
    exact if_pos ⟨hparam, hv⟩
  exact ⟨hopens.holds, hentry, f, hf, hboundary.mono hle⟩

theorem Tracks.enter (h : Tracks p m b constants (.entry m) σ)
    (hedge : Edge.within (.entry m) k flow ∈ (Cfg.ofBody m b).graph.edges) :
    Tracks p m b constants k σ := by
  obtain ⟨-, hclosed⟩ := reached_closed p constants m b
  obtain ⟨f, hf, hcovers⟩ := h.covers
  exact ⟨h.holds, hclosed _ h.reached _ (feasible_of_entered hedge),
    Constant.covers_edge hfixed hedge hf hcovers⟩

theorem Tracks.step (hb : p.body? m = some b) (hints : p.IntsFromInts b)
    (h : Tracks p m b constants (.stmt m i) σ) (hs : b.stmt? i = some s)
    (hstores : p.Stores s σ τ) (hselects : σ.Selects s flow)
    (hedge : Edge.within (.stmt m i) k flow ∈ (Cfg.ofBody m b).graph.edges) :
    Tracks p m b constants k τ := by
  obtain ⟨-, hclosed⟩ := reached_closed p constants m b
  obtain ⟨f, hf, hcovers⟩ := h.covers
  have hwithin : f.Within p := by
    obtain ⟨f', hf', hwithin, _⟩ := hfixed.defined _ (Cfg.closed_ofBody m b _ hedge).1
    cases hf.symm.trans hf'
    exact hwithin
  have hfeasible := feasible_of_selected hb hs h.holds hf hwithin hcovers hselects hedge
  refine ⟨hstores.holds h.holds, hclosed _ h.reached _ hfeasible, ?_⟩
  refine Constant.covers_edge hfixed hedge hf ?_
  have hat : p.stmtAt? (.stmt m i) = some s := by
    rw [Program.stmtAt?_stmt, hb]
    exact hs
  show (Constant.transfer p (.stmt m i) f).Covers p τ.ints
  unfold Constant.transfer
  rw [hat]
  refine Constant.covers_transferStmt hints hs hcovers (hstores.updates h.holds ?_)
  exact fun x e heq => hints i x e (heq ▸ hs)

theorem tracks (hb : p.body? m = some b) (hints : p.IntsFromInts b) (hopens : p.Opens b σ₀)
    {trace : List (Visit Unit)} {n : Node}
    (hrun : Run (p.frameDynamics W) m b σ₀ trace (some (n, σ))) : Tracks p m b constants n σ := by
  refine hrun.invariant (I := Tracks p m b constants) (tracks_start hfixed hb hopens) ?_ ?_
  · intro σ k flow h hedge
    exact h.enter hfixed hedge
  · intro i s σ _ flow τ k h hs hexec hedge
    obtain ⟨_, flow', τ', heq, hstores, hselects⟩ := hexec
    cases heq
    exact h.step hfixed hb hints hs hstores hselects hedge

end Tracks

/-- Wherever ints are computed from ints, the analysis finds a statement dead that some run comes to
only if it is an assignment without effect: it neither throws nor allocates, and its variable is not
live after it. -/
theorem analyze_spares_executed (hp : p.Accepted) (hb : p.body? m = some b)
    (hparams : ∀ v ∈ b.params, v.index < p.vars.size) (hints : p.IntsFromInts b) :
    ∃ dead, (analyze p m).result = .ok dead ∧
      ∀ (W : World) (σ₀ : W.Frame), p.Opens b σ₀ →
        ∀ trace i σ, Run (p.frameDynamics W) m b σ₀ trace (some (.stmt m i, σ)) →
          ∀ s, b.stmt? i = some s → i ∈ dead →
            ∃ x e, s = .assign x e ∧ e.mayThrow = false ∧ ¬ Liveness.LiveAfter m b i x := by
  have hreturns : Traced.Returns (analyze p m) fun dead => ∃ constants live,
      Dataflow.Fixed (Cfg.ofBody m b).graph (Constant.analysis p) (Fact.Within p)
        constants.ins constants.outs ∧ Liveness.Covers b m live ∧
      ∀ i s, b.stmt? i = some s → i ∈ dead →
        Node.stmt m i ∉ reached p (Cfg.ofBody m b) constants ∨
          ∃ x e, s = .assign x e ∧ e.mayThrow = false ∧
            ∀ out, live.outs.get? (.stmt m i) = some out → x ∉ out := by
    unfold analyze
    refine (Constant.analyze_fixed hb hparams).bind fun ⟨c, constants⟩ ⟨hc, hfixed⟩ => ?_
    cases hc
    refine (Liveness.solveCfg_covers hp hb).bind fun live hlive => ?_
    exact (detect_spec hb constants live).mono fun dead hdead =>
      ⟨constants, live, hfixed, hlive, hdead⟩
  obtain ⟨dead, hok, constants, live, hfixed, hlive, hdead⟩ := hreturns
  refine ⟨dead, hok, fun W σ₀ hopens trace i σ hrun s hs hi => ?_⟩
  rcases hdead i s hs hi with hunreached | ⟨x, e, rfl, he, hx⟩
  · exact absurd (tracks hfixed hb hints hopens hrun).reached hunreached
  · refine ⟨x, e, rfl, he, fun hafter => ?_⟩
    obtain ⟨out, hout, _⟩ := hlive.stmt hs
    exact hx out hout (hlive.mem_of_liveAfter hafter hout)

/-- In the sample, a run comes to `c = i + n`, which is found dead. -/
theorem analyze_spares_executed_sample : ∃ dead trace σ, (analyze .sample ⟨1⟩).result = .ok dead ∧
    Run (Program.sample.frameDynamics World.sample) ⟨1⟩ .sample
      (fun v => if v = ⟨2⟩ then some (.int 5) else none) trace (some (.stmt ⟨1⟩ 5, σ)) ∧
    5 ∈ dead ∧ ∃ x e, Body.sample.stmt? 5 = some (.assign x e) ∧ e.mayThrow = false ∧
      ¬ Liveness.LiveAfter ⟨1⟩ .sample 5 x := by
  have hints : Program.sample.IntsFromInts .sample := by
    intro i x e hs _ hcopies
    rcases hcopies with ⟨v, rfl⟩ | ⟨c, rfl⟩
    · have hmem := Array.mem_toList_iff.mpr (Array.mem_of_getElem? hs)
      simp [Body.sample] at hmem
    · rcases Program.binary_sample hs with ⟨-, rfl⟩ | ⟨-, rfl⟩ <;> decide
  let σ₀ : World.sample.Frame := fun v => if v = ⟨2⟩ then some (.int 5) else none
  have hopens : Program.sample.Opens .sample σ₀ := by
    have hn : ∀ v d, σ₀ v = some d → v = ⟨2⟩ ∧ d = .int 5 := by
      intro v d hd
      by_cases hv : v = ⟨2⟩
      · simp only [σ₀, if_pos hv, Option.some.injEq] at hd
        exact ⟨hv, hd.symm⟩
      · simp [σ₀, if_neg hv] at hd
    refine ⟨fun v d hd => ?_, by simp [σ₀, Body.sample], fun v hv => ?_⟩
    · obtain ⟨rfl, rfl⟩ := hn v d hd
      decide
    · obtain ⟨d, hd⟩ := Option.ne_none_iff_exists'.mp hv
      exact .inl (List.mem_singleton.mpr (hn v d hd).1)
  have h₀ : Run (Program.sample.frameDynamics World.sample) ⟨1⟩ .sample σ₀ _
      (some (.stmt ⟨1⟩ 0, σ₀)) := .enter .start (Cfg.mem_edges.mpr (.inl rfl))
  have h₁ := Program.frame_step .fallThrough (.stmt ⟨1⟩ 1) h₀ rfl (by decide)
    (.assign trivial (d := .other ()) (by decide)) trivial (by decide)
  have h₂ := Program.frame_step .fallThrough (.stmt ⟨1⟩ 2) h₁ rfl (by decide)
    (.invoke (d := .other ()) (by decide)) trivial (by decide)
  have h₃ := Program.frame_step .fallThrough (.stmt ⟨1⟩ 3) h₂ rfl (by decide)
    (.assign rfl (by decide)) trivial (by decide)
  have h₅ := Program.frame_step .ifTrue (.stmt ⟨1⟩ 5) h₃ rfl (by decide)
    rfl ⟨.int 1, ⟨_, _, rfl, rfl, rfl⟩, .inl ⟨(by decide : (1 : Int32) ≠ 0), rfl⟩⟩ (by decide)
  obtain ⟨dead, hok, hspares⟩ := analyze_spares_executed Program.accepted_sample (m := ⟨1⟩)
    (b := .sample) rfl (by decide) hints
  have hdead : 5 ∈ dead := by
    have hfour : (analyze .sample ⟨1⟩).result = .ok [4, 5] := by rfl
    cases hok.symm.trans hfour
    decide
  obtain ⟨x, e, hs, hassigned⟩ := hspares _ σ₀ hopens _ _ _ h₅ _ rfl hdead
  exact ⟨dead, _, _, hok, h₅, hdead, x, e, congrArg some hs, hassigned⟩

/-- `x = 1; loop: switch (x) case 1: x = p < q; goto loop; default: return`, for `p` and `q` of type
`long`. -/
def longs : Body where
  this := none
  params := [⟨0⟩, ⟨1⟩]
  stmts := #[.assign ⟨2⟩ (.int 1), .switch ⟨2⟩ [(1, 2)] 4, .assign ⟨2⟩ (.binary ⟨.lt, ⟨0⟩, ⟨1⟩⟩),
    .goto 1, .ret none]

def longsBuilder : Builder where
  classes := #[⟨"C", none, [], false, false, [("void m(long,long)", ⟨0⟩)], []⟩]
  fields := #[]
  methods := #[⟨"void m(long,long)", ⟨0⟩, true, false, some longs⟩]
  vars := #[⟨"p", .prim .long, ⟨0⟩⟩, ⟨"q", .prim .long, ⟨0⟩⟩, ⟨"x", .int, ⟨0⟩⟩]
  entry := none
  root := none

theorem accepted_longs : longsBuilder.program.Accepted := by
  have hmethod := (Builder.Built.empty.addClass "C" none).addMethod
    (rfl : Builder.addMethod _ ⟨0⟩ "void m(long,long)" true = .ok (_, _))
  have hvars := ((hmethod.addVar ⟨0⟩ "p" (.prim .long)).addVar ⟨0⟩ "q" (.prim .long)).addVar ⟨0⟩
    "x" .int
  have hbody := hvars.setBody (rfl : Builder.setBody _ ⟨0⟩ longs = .ok _)
  exact ⟨longsBuilder, hbody, rfl⟩

/-- A world in which no comparison holds. -/
def unordered : World := { World.sample with compute := fun _ _ _ => .int 0 }

/-- To the analysis `x` is 1 whenever control comes to the switch, since `p < q` is `undef`, so that
the return is dead. A run in which `p < q` does not hold executes it. -/
theorem analyze_condemns_executed : longsBuilder.program.Accepted ∧
    (analyze longsBuilder.program ⟨0⟩).result = .ok [4] ∧
    ∃ σ₀ trace σ, longsBuilder.program.Opens longs σ₀ ∧
      Run (longsBuilder.program.frameDynamics unordered) ⟨0⟩ longs σ₀ trace
        (some (.exit ⟨0⟩, σ)) ∧
      ⟨.stmt ⟨0⟩ 4, some (), some .ret⟩ ∈ trace ∧ longs.stmt? 4 = some (.ret none) := by
  let σ₀ : unordered.Frame := fun v =>
    if v ∈ longs.params then some (.other ()) else none
  have hopens : longsBuilder.program.Opens longs σ₀ := by
    refine ⟨fun v d hd => ?_, fun v hv => by simp [σ₀, hv], fun v hv => .inl ?_⟩
    · by_cases hv : v ∈ longs.params
      · simp only [σ₀, if_pos hv, Option.some.injEq] at hd
        subst hd
        exact (by decide : ∀ v ∈ longs.params,
          longsBuilder.program.Fits v (.other () : Datum Unit)) v hv
      · simp [σ₀, if_neg hv] at hd
    · by_contra hnot
      exact hv (if_neg hnot)
  have h₀ : Run (longsBuilder.program.frameDynamics unordered) ⟨0⟩ longs σ₀ _
      (some (.stmt ⟨0⟩ 0, σ₀)) := .enter .start (Cfg.mem_edges.mpr (.inl rfl))
  have h₁ := Program.frame_step .fallThrough (.stmt ⟨0⟩ 1) h₀ rfl (by decide)
    (.assign rfl (by decide)) trivial (by decide)
  have h₂ := Program.frame_step (.switchCase 1) (.stmt ⟨0⟩ 2) h₁ rfl (by decide) rfl
    ⟨.int 1, rfl, .inl ⟨1, by decide, rfl, rfl⟩⟩ (by decide)
  have h₃ := Program.frame_step .fallThrough (.stmt ⟨0⟩ 3) h₂ rfl (by decide)
    (.assign (d := .int 0) ⟨_, _, rfl, rfl, fun _ => rfl⟩ (by decide)) trivial (by decide)
  have hback := Program.frame_step .goto (.stmt ⟨0⟩ 1) h₃ rfl (by decide) rfl
    trivial (by decide)
  have h₄ := Program.frame_step .switchDefault (.stmt ⟨0⟩ 4) hback rfl (by decide) rfl
    ⟨.int 0, rfl, .inr ⟨by simp [World.IsCase], rfl⟩⟩ (by decide)
  have hexit := Program.frame_step .ret (.exit ⟨0⟩) h₄ rfl (by decide) rfl trivial
    (by decide)
  exact ⟨accepted_longs, by rfl, σ₀, _, _, hopens, hexit, List.mem_append_right _
    (List.mem_singleton.mpr rfl), rfl⟩

end ProgramAnalysis.DeadCode
