import ProgramAnalysis.Pipeline.Run
import ProgramAnalysis.Proofs.Constant.Convergence
import ProgramAnalysis.Proofs.DeadCode.Precision

/-! Runs of all analyses with constants across calls, against runs with constants within methods. The
call graph does not depend on constants. Without division, the facts across calls refine those within
methods, and so no statement that is found dead within its method is spared. -/
namespace ProgramAnalysis

/-- The settings, with constants across calls or within methods. -/
def Config.withInterprocedural (c : Config) (interprocedural : Bool) : Config :=
  { c with constants := ⟨interprocedural⟩ }

namespace Pipeline

variable {c : Config} {p : Program} {entry m : MethodId} {calls : CallGraph}
  {pointsTo : Option PointsTo.Result} {inter : Option Constant.Facts} {own facts : Constant.Facts}
  {report : MethodReport} {r : Report} {b : Body} {dead : List Nat}

/-! ### Stages -/

theorem found_of_callGraph (h : (callGraph c p entry).result = .ok (calls, pointsTo)) :
    CallGraph.Found p calls := by
  unfold callGraph at h
  split at h
  · obtain ⟨g, hbuild, h⟩ := Traced.bind_ok_iff.mp h
    cases h
    exact .hierarchy hbuild
  · obtain ⟨s, hanalyze, h⟩ := Traced.bind_ok_iff.mp h
    cases h
    exact .pointsTo rfl hanalyze

/-- What the stages of a run return. -/
structure Stages (c : Config) (p : Program) (r : Report) (entry : MethodId)
    (methods : List MethodId) (inter : Option Constant.Facts) : Prop where
  checked : checkConfig c = .ok ()
  entered : entryOf c p = .ok entry
  called : (callGraph c p entry).result = .ok (r.calls, r.pointsTo)
  included : Icfg.withBody p r.calls.reachable.toList = .ok methods
  propagated : (interConstants c p r.calls).result = .ok inter
  reported : (methods.mapM (analyzeMethod c p inter)).result = .ok r.methods
  algorithm : r.algorithm = c.callGraph.algorithm

theorem run_ok_iff :
    (run c p).result = .ok r ↔ ∃ entry methods inter, Stages c p r entry methods inter := by
  unfold run
  simp only [Traced.bind_ok_iff, Traced.result_lift, Traced.result_log, Traced.result_pure]
  constructor
  · rintro ⟨_, hconfig, entry, hentry, _, _, ⟨calls, pointsTo⟩, hcalls, methods, hmethods, inter,
      hinter, reports, hreports, _, _, h⟩
    cases h
    exact ⟨entry, methods, inter, hconfig, hentry, hcalls, hmethods, hinter, hreports, rfl⟩
  · rintro ⟨entry, methods, inter, h⟩
    refine ⟨(), h.checked, entry, h.entered, (), trivial, _, h.called, methods, h.included, inter,
      h.propagated, r.methods, h.reported, (), trivial, ?_⟩
    rw [← h.algorithm]

/-- What the stages for a method return. -/
theorem analyzeMethod_ok_iff : (analyzeMethod c p inter m).result = .ok report ↔
    ∃ cfg constants dead signature, (methodConstants p inter m).result = .ok (cfg, constants) ∧
      (deadCode c p cfg constants).result = .ok dead ∧ p.getSignature m = .ok signature ∧
      report = ⟨m, signature, (constants.ins.get? cfg.exit).getD .empty, dead⟩ := by
  unfold analyzeMethod
  simp only [Traced.bind_ok_iff, Traced.result_lift, Traced.result_log, Traced.result_pure]
  constructor
  · rintro ⟨⟨cfg, constants⟩, hconstants, dead, hdead, signature, hsignature, _, _, h⟩
    exact ⟨cfg, constants, dead, signature, hconstants, hdead, hsignature, (Except.ok.inj h).symm⟩
  · rintro ⟨cfg, constants, dead, signature, hconstants, hdead, hsignature, rfl⟩
    exact ⟨(cfg, constants), hconstants, dead, hdead, signature, hsignature, (), trivial, rfl⟩

/-! ### With constants across calls, and without -/

theorem deadCode_refined (hrefines : Constant.Refines (Cfg.ofBody m b).graph own facts)
    (h : (deadCode c p (Cfg.ofBody m b) own).result = .ok dead) :
    ∃ dead', (deadCode c p (Cfg.ofBody m b) facts).result = .ok dead' ∧ dead ⊆ dead' := by
  unfold deadCode at h ⊢
  by_cases henabled : c.deadCode.enabled = true
  · rw [if_pos henabled] at h ⊢
    obtain ⟨live, hlive, h⟩ := Traced.bind_ok_iff.mp h
    obtain ⟨dead', hdead', hsub⟩ := DeadCode.detect_refined hrefines h
    exact ⟨dead', Traced.bind_ok_iff.mpr ⟨live, hlive, hdead'⟩, hsub⟩
  · rw [if_neg henabled] at h ⊢
    cases h
    exact ⟨[], rfl, List.Subset.refl _⟩

/-- If the facts across calls refine those within the method, whatever is reported dead by these is
reported dead by the former. -/
theorem analyzeMethod_refined (hb : p.body? m = some b)
    (hparams : ∀ v ∈ b.params, v.index < p.vars.size)
    (hrefines : Constant.Refines (Cfg.ofBody m b).graph
      (Dataflow.solve (Cfg.ofBody m b).graph (Constant.analysis p)) facts)
    (h : (analyzeMethod (c.withInterprocedural false) p none m).result = .ok report) :
    ∃ report', (analyzeMethod (c.withInterprocedural true) p (some facts) m).result = .ok report' ∧
      report.method = report'.method ∧ report.deadCode ⊆ report'.deadCode := by
  obtain ⟨cfg, constants, dead, signature, hconstants, hdead, hsignature, rfl⟩ :=
    analyzeMethod_ok_iff.mp h
  cases hconstants.symm.trans (Constant.analyze_eq hb hparams)
  have hown : (methodConstants p (some facts) m).result = .ok (Cfg.ofBody m b, facts) :=
    Traced.bind_ok_iff.mpr ⟨_, Cfg.build_eq hb, rfl⟩
  obtain ⟨dead', hdead', hsub⟩ := deadCode_refined (c := c) hrefines hdead
  exact ⟨_, analyzeMethod_ok_iff.mpr ⟨_, _, dead', signature, hown, hdead', hsignature, rfl⟩,
    rfl, hsub⟩

/-- Without division, what constant propagation knows of a reachable method by itself, it knows under
the callers of the method too: there only `nac` becomes something else. A run that propagates
constants across calls finds the same call graph, and reports dead whatever one reports dead that
does not. -/
theorem interprocedural_refines (hparams : p.ParamsInRange) (hdivision : p.NoDivision) :
    (∀ calls, CallGraph.Found p calls → ∃ g facts, (Icfg.build p calls).result = .ok g ∧
      (Constant.solveIcfg p g).result = .ok facts ∧ ∀ m b, Icfg.Includes p calls m b →
        ∃ own, (Constant.analyze p m).result = .ok (Cfg.ofBody m b, own) ∧
          Constant.Refines (Cfg.ofBody m b).graph own facts) ∧
    ∀ (c : Config) r, (run (c.withInterprocedural false) p).result = .ok r →
      ∃ r', (run (c.withInterprocedural true) p).result = .ok r' ∧ r'.calls = r.calls ∧
        List.Forall₂ (fun report report' => report.method = report'.method ∧
          report.deadCode ⊆ report'.deadCode) r.methods r'.methods := by
  have hfacts : ∀ calls, CallGraph.Found p calls → ∃ g facts, (Icfg.build p calls).result = .ok g ∧
      (Constant.solveIcfg p g).result = .ok facts ∧ ∀ m b, Icfg.Includes p calls m b →
        Constant.Refines (Cfg.ofBody m b).graph
          (Dataflow.solve (Cfg.ofBody m b).graph (Constant.analysis p)) facts := by
    intro calls hcalls
    obtain ⟨g, hg⟩ := Icfg.build_total hcalls
    exact ⟨g, _, hg, Constant.solveIcfg_eq hparams g, fun m b hm =>
      Constant.refines (Icfg.build_joins hg) hcalls.closed hdivision hm⟩
  refine ⟨fun calls hcalls => ?_, fun c r h => ?_⟩
  · obtain ⟨g, facts, hg, hsolve, hrefines⟩ := hfacts calls hcalls
    refine ⟨g, facts, hg, hsolve, fun m b hm => ?_⟩
    exact ⟨_, Constant.analyze_eq hm.2 (hparams m b hm.2), hrefines m b hm⟩
  · obtain ⟨entry, methods, inter, hstages⟩ := run_ok_iff.mp h
    obtain ⟨g, facts, hg, hsolve, hrefines⟩ := hfacts r.calls (found_of_callGraph hstages.called)
    cases hstages.propagated
    obtain ⟨reports, hreports, hrelated⟩ := Traced.mapM_related (fun m hm report hreport => by
      obtain ⟨hreachable, b, hb⟩ := (Icfg.mem_withBody hstages.included).mp hm
      exact analyzeMethod_refined hb (hparams m b hb)
        (hrefines m b ⟨Array.mem_toList_iff.mp hreachable, hb⟩) hreport) hstages.reported
    have hinter : (interConstants (c.withInterprocedural true) p r.calls).result =
        .ok (some facts) :=
      Traced.bind_ok_iff.mpr ⟨g, hg, Traced.bind_ok_iff.mpr ⟨facts, hsolve, rfl⟩⟩
    refine ⟨{ r with methods := reports }, run_ok_iff.mpr ⟨entry, methods, some facts, ?_⟩, rfl,
      hrelated⟩
    exact ⟨hstages.checked, hstages.entered, hstages.called, hstages.included, hinter, hreports,
      hstages.algorithm⟩

theorem interprocedural_refines_natives :
    (∃ g facts own, (Icfg.build Constant.natives Constant.nativesCalls).result = .ok g ∧
      (Constant.solveIcfg Constant.natives g).result = .ok facts ∧
      (Constant.analyze Constant.natives ⟨2⟩).result = .ok (Cfg.ofBody ⟨2⟩ Constant.caller, own) ∧
      Constant.Refines (Cfg.ofBody ⟨2⟩ Constant.caller).graph own facts) ∧
    ∃ c r r', (run (Config.withInterprocedural c false) Constant.natives).result = .ok r ∧
      (run (c.withInterprocedural true) Constant.natives).result = .ok r' ∧ r'.calls = r.calls ∧
      List.Forall₂ (fun report report' => report.method = report'.method ∧
        report.deadCode ⊆ report'.deadCode) r.methods r'.methods := by
  obtain ⟨hfacts, hrun⟩ :=
    interprocedural_refines Constant.paramsInRange_natives Constant.noDivision_natives
  obtain ⟨g, facts, hg, hsolve, hmethods⟩ := hfacts _ Constant.found_natives
  obtain ⟨own, hown, hrefines⟩ := hmethods _ _ Constant.includes_caller
  let c : Config := { Config.default with callGraph := ⟨.classHierarchy, none⟩ }
  have hok : (run (c.withInterprocedural false) Constant.natives).result.toOption.isSome := by
    decide +kernel
  cases hr : (run (c.withInterprocedural false) Constant.natives).result with
  | error e =>
    rw [hr] at hok
    cases hok
  | ok r =>
    obtain ⟨r', hr', hcalls, hreports⟩ := hrun c r hr
    exact ⟨⟨g, facts, own, hg, hsolve, hown, hrefines⟩, c, r, r', hr, hr', hcalls, hreports⟩

end Pipeline
end ProgramAnalysis
