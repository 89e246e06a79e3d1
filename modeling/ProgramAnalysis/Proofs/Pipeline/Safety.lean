import ProgramAnalysis.Proofs.Pipeline.Events
import ProgramAnalysis.Proofs.Pipeline.Interprocedural
import ProgramAnalysis.Proofs.PointsTo.Convergence

/-! Runs of all analyses do not go wrong. Of a program that is accepted, has its class handles in
range and has its receivers and parameters declared for methods that exist, a run fails for a reason
in the configuration or for want of an entry, and for no other: every handle that it looks up names
something, and so does every node that it builds. -/
namespace ProgramAnalysis

/-- All that data-flow analysis looks up at the nodes of a graph is there. -/
structure Program.Covers (p : Program) (g : FlowGraph) : Prop where
  method : ∀ {n}, n ∈ g.nodes → n.method.index < p.methods.size
  stmt : ∀ {n i}, n ∈ g.nodes → n.stmtIndex? = some i → ∃ s, p.stmtAt? n = some s
  var : ∀ {n s v}, n ∈ g.nodes → p.stmtAt? n = some s → s.def? = some v ∨ v ∈ s.uses →
    v.index < p.vars.size
  edges : g.Closed

theorem Program.BindsDeclared.paramsInRange {p : Program} (hb : p.BindsDeclared) :
    p.ParamsInRange := by
  intro m b hbody v hv
  obtain ⟨k, howns, _⟩ := hb m b v hbody (.inr hv)
  exact howns.lt

/-! ### Graphs -/

section Graphs

variable {p : Program} {m : MethodId} {b : Body} {n : Node} {calls : CallGraph} {g : Icfg}

theorem stmtAt?_of_mem_nodes (hb : p.body? m = some b) (hn : n ∈ (Cfg.ofBody m b).graph.nodes)
    {i : Nat} (hi : n.stmtIndex? = some i) : ∃ s, p.stmtAt? n = some s := by
  rcases Cfg.mem_nodes.mp hn with rfl | rfl | ⟨j, hj, rfl⟩
  · cases hi
  · cases hi
  · refine ⟨b.stmts[j], ?_⟩
    rw [p.stmtAt?_stmt, hb]
    exact Array.getElem?_eq_getElem hj

theorem covers_cfg (hp : p.Accepted) (hb : p.body? m = some b) :
    p.Covers (Cfg.ofBody m b).graph where
  method hn := by
    rw [Cfg.method_of_mem_nodes hn]
    exact Program.lt_of_body? hb
  stmt hn hi := stmtAt?_of_mem_nodes hb hn hi
  var _ hs hv := hp.lt_of_stmtAt? hs hv
  edges := Cfg.closed_ofBody m b

theorem Icfg.Joins.covers (hp : p.Accepted) (hj : Joins p calls g) (hcalls : calls.Closed) :
    p.Covers g.graph where
  method hn := by
    obtain ⟨m, b, hm, hn⟩ := (hj.nodes _).mp hn
    exact (covers_cfg hp hm.2).method hn
  stmt hn hi := by
    obtain ⟨m, b, hm, hn⟩ := (hj.nodes _).mp hn
    exact (covers_cfg hp hm.2).stmt hn hi
  var _ hs hv := hp.lt_of_stmtAt? hs hv
  edges := hj.closed hcalls

end Graphs

namespace Pipeline

variable {c : Config} {p : Program} {m entry : MethodId} {calls : CallGraph} {b : Body}
  {e : AnalysisError}

/-! ### Refusals -/

/-- Why a run is refused before an analysis begins: the configuration is not valid, the entry that
it names is not there, or it names none and the program has none. -/
inductive Refused (c : Config) (p : Program) : AnalysisError → Prop
  | config {e : ConfigError} : c.validate = .error e → Refused c p (.config e)
  | unknown {signature : String} : c.validate = .ok () → c.callGraph.entry = some signature →
      p.methodOfSignature? signature = none → Refused c p (.entryNotFound signature)
  | missing : c.validate = .ok () → c.callGraph.entry = none → p.entry = none →
      Refused c p .noEntryMethod

theorem refused_iff : Refused c p e ↔
    (do checkConfig c; entryOf c p : Except AnalysisError MethodId) = .error e := by
  constructor
  · intro h
    cases h with
    | config h => simp [checkConfig, h, bind, Except.bind]
    | unknown h he hm => simp [checkConfig, h, entryOf, he, hm, bind, Except.bind]
    | missing h he hm => simp [checkConfig, h, entryOf, he, hm, bind, Except.bind]
  · intro h
    unfold checkConfig at h
    cases hvalid : c.validate with
    | error e' =>
      rw [hvalid] at h
      cases h
      exact .config hvalid
    | ok u =>
      rw [hvalid] at h
      change entryOf c p = .error e at h
      unfold entryOf at h
      split at h
      · next signature he =>
        split at h
        · cases h
        · next hm =>
          cases h
          exact .unknown hvalid he hm
      · next he =>
        split at h
        · cases h
        · next hm =>
          cases h
          exact .missing hvalid he hm

theorem entry_lt (hp : p.Accepted) (h : entryOf c p = .ok m) : m.index < p.methods.size := by
  unfold entryOf at h
  split at h
  · next signature _ =>
    split at h
    · next k hk =>
      cases h
      simp only [Program.methodOfSignature?, bind, Option.bind_eq_some_iff] at hk
      obtain ⟨_, _, _, _, _, _, _, _, d, hd, hdeclared⟩ := hk
      exact hp.declared_lt hd hdeclared
    · cases h
  · split at h
    · next k hk =>
      cases h
      exact hp.entry_lt hk
    · cases h

/-! ### Stages that do not fail -/

theorem callGraph_total (ha : p.Accepted) (hc : p.ClassesInRange) (hb : p.BindsDeclared)
    (hlt : entry.index < p.methods.size) :
    ∃ calls pointsTo, (callGraph c p entry).result = .ok (calls, pointsTo) := by
  unfold callGraph
  split
  · obtain ⟨g, hbuild, _⟩ := ClassHierarchy.build_ok ha hc hlt
    exact ⟨g, none, Traced.bind_ok_iff.mpr ⟨g, hbuild, rfl⟩⟩
  · obtain ⟨u, _, _, _, hsolve⟩ := PointsTo.solve_converges
      (q := ⟨p, c.pointsTo.heapModel, some entry⟩) ha hc hb rfl hlt
    have hanalyze : (PointsTo.analyze ⟨p, c.pointsTo.heapModel, some entry⟩).result =
        .ok u.result := Traced.bind_ok_iff.mpr ⟨u, hsolve, rfl⟩
    exact ⟨_, _, Traced.bind_ok_iff.mpr ⟨u.result, hanalyze, rfl⟩⟩

theorem interConstants_total (hparams : p.ParamsInRange) (hcalls : CallGraph.Found p calls) :
    ∃ inter, (interConstants c p calls).result = .ok inter := by
  unfold interConstants
  split
  · obtain ⟨g, hg⟩ := Icfg.build_total hcalls
    have hsolve := Constant.solveIcfg_eq hparams g
    exact ⟨_, Traced.bind_ok_iff.mpr ⟨g, hg, Traced.bind_ok_iff.mpr ⟨_, hsolve, rfl⟩⟩⟩
  · exact ⟨none, rfl⟩

theorem analyzeMethod_total (ha : p.Accepted) (hparams : p.ParamsInRange)
    (inter : Option Constant.Facts) (hb : p.body? m = some b) :
    ∃ report, (analyzeMethod c p inter m).result = .ok report := by
  have hconstants : ∃ constants,
      (methodConstants p inter m).result = .ok (Cfg.ofBody m b, constants) := by
    cases inter with
    | none => exact ⟨_, Constant.analyze_eq hb (hparams m b hb)⟩
    | some facts => exact ⟨facts, Traced.bind_ok_iff.mpr ⟨_, Cfg.build_eq hb, rfl⟩⟩
  obtain ⟨constants, hconstants⟩ := hconstants
  have hdead : ∃ dead, (deadCode c p (Cfg.ofBody m b) constants).result = .ok dead := by
    unfold deadCode
    split
    · obtain ⟨live, hlive, _⟩ := Liveness.solveCfg_covers ha hb
      obtain ⟨dead, hdetect, _⟩ := DeadCode.detect_returns p (Cfg.ofBody m b) constants live
      exact ⟨dead, Traced.bind_ok_iff.mpr ⟨live, hlive, hdetect⟩⟩
    · exact ⟨[], rfl⟩
  obtain ⟨dead, hdead⟩ := hdead
  obtain ⟨signature, hsignature⟩ := ha.getSignature_ok (Program.lt_of_body? hb)
  exact ⟨_, analyzeMethod_ok_iff.mpr ⟨_, _, dead, signature, hconstants, hdead, hsignature, rfl⟩⟩

theorem run_total (ha : p.Accepted) (hc : p.ClassesInRange) (hb : p.BindsDeclared)
    (hconfig : checkConfig c = .ok ()) (hentry : entryOf c p = .ok entry) :
    ∃ r, (run c p).result = .ok r := by
  obtain ⟨calls, pointsTo, hcalls⟩ := callGraph_total (c := c) ha hc hb (entry_lt ha hentry)
  have hfound := found_of_callGraph hcalls
  have hlt : ∀ m ∈ calls.reachable.toList, m.index < p.methods.size := fun m hm =>
    hfound.lt (Array.mem_toList_iff.mp hm)
  obtain ⟨methods, hmethods⟩ := Icfg.withBody_total hlt
  obtain ⟨inter, hinter⟩ := interConstants_total (c := c) hb.paramsInRange hfound
  have hround : ∀ m ∈ methods, ∃ report, (analyzeMethod c p inter m).result = .ok report := by
    intro m hm
    obtain ⟨_, b, hbody⟩ := (Icfg.mem_withBody hmethods).mp hm
    exact analyzeMethod_total ha hb.paramsInRange inter hbody
  obtain ⟨reports, hreports⟩ := Traced.mapM_total hround
  exact ⟨⟨c.callGraph.algorithm, calls, pointsTo, reports⟩, run_ok_iff.mpr
    ⟨entry, methods, inter, hconfig, hentry, hcalls, hmethods, hinter, hreports, rfl⟩⟩

/-! ### Safety -/

theorem run_error_iff (ha : p.Accepted) (hc : p.ClassesInRange) (hb : p.BindsDeclared) :
    (run c p).result = .error e ↔ Refused c p e := by
  have hrun : ∀ {e}, (do checkConfig c; entryOf c p : Except AnalysisError MethodId) = .error e →
      (run c p).result = .error e := by
    intro e h
    unfold run
    rw [Traced.result_bind, Traced.result_lift]
    cases hconfig : checkConfig c with
    | error e' =>
      rw [hconfig] at h
      cases h
      rfl
    | ok u =>
      rw [hconfig] at h
      change entryOf c p = .error e at h
      show (liftM (entryOf c p) >>= _ : Traced Report).result = _
      rw [Traced.result_bind, Traced.result_lift, h]
      rfl
  rw [refused_iff]
  refine ⟨fun h => ?_, hrun⟩
  cases hstart : (do checkConfig c; entryOf c p : Except AnalysisError MethodId) with
  | error e' =>
    rw [hrun hstart] at h
    cases h
    rfl
  | ok entry =>
    obtain ⟨_, hconfig, hentry⟩ := bind_ok_iff.mp hstart
    obtain ⟨r, hr⟩ := run_total ha hc hb hconfig hentry
    rw [hr] at h
    cases h

/-- A run fails for the reasons for which it is refused, and for no other. Whatever it logs has a
text, and the graphs that it solves have nothing in them that is not in the program, and no ends but
those of their own methods. -/
theorem run_safe (ha : p.Accepted) (hc : p.ClassesInRange) (hb : p.BindsDeclared) (c : Config) :
    (∀ e, (run c p).result = .error e ↔ Refused c p e) ∧
    (∀ e ∈ (run c p).events, ∃ line, e.text p = .ok line) ∧
    (∀ m cfg, Cfg.build p m = .ok cfg →
      p.Covers cfg.graph ∧ cfg.method = m ∧ cfg.graph.ends = [(cfg.entry, cfg.exit)]) ∧
    ∀ entry calls pointsTo, entryOf c p = .ok entry →
      (callGraph c p entry).result = .ok (calls, pointsTo) →
      ∃ g, (Icfg.build p calls).result = .ok g ∧ p.Covers g.graph := by
  refine ⟨fun e => run_error_iff ha hc hb, fun e he => ?_, fun m cfg h => ?_,
    fun entry calls pointsTo _ hcalls => ?_⟩
  · exact (logs_run (fun m hm => entry_lt ha hm) e he).text_ok ha
  · obtain ⟨b, hbody, rfl⟩ := Cfg.build_ok_iff.mp h
    exact ⟨covers_cfg ha hbody, rfl, rfl⟩
  · have hfound := found_of_callGraph hcalls
    obtain ⟨g, hg⟩ := Icfg.build_total hfound
    exact ⟨g, hg, (Icfg.build_joins hg).covers ha hfound.closed⟩

theorem run_safe_sample : Program.sample.Accepted ∧ Program.sample.ClassesInRange ∧
    Program.sample.BindsDeclared ∧ entryOf .default .sample = .ok ⟨1⟩ ∧
    (∃ r, (run .default .sample).result = .ok r) ∧
    ∀ e ∈ (run .default .sample).events, ∃ line, e.text .sample = .ok line := by
  obtain ⟨hfails, htexts, -⟩ := run_safe Program.accepted_sample Program.proper_sample.classes
    Program.proper_sample.bindsDeclared .default
  refine ⟨Program.accepted_sample, Program.proper_sample.classes,
    Program.proper_sample.bindsDeclared, rfl, ?_, htexts⟩
  cases hrun : (run .default .sample).result with
  | ok r => exact ⟨r, rfl⟩
  | error e =>
    have hstart := refused_iff.mp ((hfails e).mp hrun)
    cases hstart

/-- The missed check of owners makes a run go wrong. The parameter is in range, but declared for a
method that does not exist, whose body is looked at when an object arrives there. -/
theorem run_fails_on_stray : PointsTo.stray.Accepted ∧ PointsTo.stray.ClassesInRange ∧
    PointsTo.stray.BindsInRange ∧ (run .default PointsTo.stray).result = .error .danglingHandle ∧
    ¬ Refused .default PointsTo.stray .danglingHandle := by
  refine ⟨PointsTo.accepted_stray, PointsTo.classesInRange_stray, ?_, by decide +kernel, nofun⟩
  rintro m b v hb (hv | hv)
  · cases PointsTo.body?_stray hb
    cases hv
  · cases PointsTo.body?_stray hb
    rw [List.mem_singleton.mp hv]
    decide

end Pipeline
end ProgramAnalysis
