import ProgramAnalysis.Proofs.CallGraph.Lockstep
import ProgramAnalysis.Proofs.Pipeline.Agreement
import ProgramAnalysis.Proofs.Pipeline.Safety
import ProgramAnalysis.Proofs.PointsTo.Agreement

/-! Unreachable code does not matter. A run of all analyses reads the bodies of the methods in its call
graph and no others, so that two programs that differ only elsewhere get the same report, and the same
log. -/
namespace ProgramAnalysis

namespace Pipeline

variable {c : Config} {p p' : Program} {R : Set MethodId} {entry m : MethodId} {calls : CallGraph}
  {pointsTo : Option PointsTo.Result}

/-- If a run gets to its call graph, it has one, and the method is not in it. -/
def Unreachable (c : Config) (p : Program) (m : MethodId) : Prop :=
  ∀ entry, checkConfig c = .ok () → entryOf c p = .ok entry →
    ∃ calls pointsTo, (callGraph c p entry).result = .ok (calls, pointsTo) ∧ m ∉ calls.reachable

/-! ### Stages -/

theorem entryOf_of_withoutBodies (h : p'.withoutBodies = p.withoutBodies) :
    entryOf c p' = entryOf c p := by
  have hentry : ∀ p : Program, entryOf c p.withoutBodies = entryOf c p := fun _ => rfl
  rw [← hentry p', h, hentry p]

theorem callGraph_agrees (ha : p.Accepted) (ha' : p'.Accepted) (hb : p.BindsDeclared)
    (hb' : p'.BindsDeclared) (hc : p.Confines R) (hdecls : p'.withoutBodies = p.withoutBodies)
    (hagrees : p.Agrees R p') (hlt : entry.index < p.methods.size)
    (h : (callGraph c p entry).result = .ok (calls, pointsTo)) (hR : ∀ m ∈ calls.reachable, m ∈ R) :
    callGraph c p' entry = callGraph c p entry := by
  unfold callGraph at h ⊢
  split at h
  · obtain ⟨g, hbuild, h⟩ := Traced.bind_ok_iff.mp h
    cases h
    rw [ClassHierarchy.build_agrees hdecls hagrees hbuild hR]
  · obtain ⟨r, hanalyze, h⟩ := Traced.bind_ok_iff.mp h
    cases h
    exact congrArg (· >>= fun r => pure (r.calls, some r)) (PointsTo.analyze_agrees
      (q := ⟨p, c.pointsTo.heapModel, some entry⟩) ha ha' hb hb' rfl hlt hagrees hc hanalyze hR)

section Analyses

variable (hdecls : p'.withoutBodies = p.withoutBodies) (hagrees : p.Agrees R p')
include hdecls hagrees

theorem interConstants_agrees (hcalls : calls.Closed) (hR : ∀ m ∈ calls.reachable, m ∈ R) :
    interConstants c p' calls = interConstants c p calls := by
  unfold interConstants
  split
  · rw [Icfg.build_agrees hdecls hagrees hcalls hR]
    refine Traced.bind_congr_of_ok fun g hg => ?_
    have hj := Icfg.build_joins hg
    rw [Constant.solveIcfg_agrees hagrees (hj.closed hcalls) (fun n hn => hj.method_mem hR hn)
      fun e he => Constant.edgeWithin_of_joins hj hcalls hR he]
  · rfl

theorem methodConstants_agrees (hm : m ∈ R) (inter : Option Constant.Facts) :
    methodConstants p' inter m = methodConstants p inter m := by
  unfold methodConstants Constant.analyze
  rw [Cfg.build_agrees hdecls hagrees hm]
  cases inter with
  | some facts => rfl
  | none =>
    refine Traced.bind_congr_of_ok fun cfg hcfg => ?_
    obtain ⟨b, -, rfl⟩ := Cfg.build_ok_iff.mp hcfg
    rw [Constant.solveCfg_agrees hagrees hm (Cfg.closed_ofBody m b) (Cfg.method_mem hm)]

theorem analyzeMethod_agrees (hm : m ∈ R) (inter : Option Constant.Facts) :
    analyzeMethod c p' inter m = analyzeMethod c p inter m := by
  unfold analyzeMethod
  rw [methodConstants_agrees hdecls hagrees hm]
  refine Traced.bind_congr_of_ok fun r hr => ?_
  obtain ⟨b, -, hcfg⟩ := cfg_of_methodConstants hr
  have hR : ∀ n ∈ (Cfg.ofBody m b).graph.nodes, n.method ∈ R := Cfg.method_mem hm
  have hdead : deadCode c p' r.1 r.2 = deadCode c p r.1 r.2 := by
    unfold deadCode
    rw [hcfg, Liveness.solveCfg_agrees hagrees (Cfg.closed_ofBody m b) hR]
    simp only [DeadCode.detect_agrees hagrees (Cfg.closed_ofBody m b) hm hR]
  dsimp only
  rw [hdead, Program.getSignature_of_withoutBodies hdecls]

end Analyses

/-! ### Noninterference -/

/-- From the call graph on, a run looks at the bodies of its methods only. -/
theorem run_agrees (ha : p.Accepted) (ha' : p'.Accepted) (hthis : p.OwnsThis)
    (hparams : p.OwnsParams) (hb' : p'.BindsDeclared) (hdecls : p'.withoutBodies = p.withoutBodies)
    (hentry : entryOf c p = .ok entry) (hcalls : (callGraph c p entry).result = .ok (calls, pointsTo))
    (hbodies : ∀ m ∈ calls.reachable, p'.body? m = p.body? m) : run c p' = run c p := by
  have hb := Program.bindsDeclared_of_owns hthis hparams
  have hconfines := (ha.wellFormed hthis hparams).confines {m | m ∈ calls.reachable}
  have hagrees : p.Agrees {m | m ∈ calls.reachable} p' :=
    Program.agrees_of_withoutBodies hdecls hbodies
  have hclosed := (found_of_callGraph hcalls).closed
  unfold run
  rw [entryOf_of_withoutBodies hdecls]
  refine Traced.bind_congr_of_ok fun _ _ => Traced.bind_congr_of_ok fun entry' hentry' =>
    Traced.bind_congr_of_ok fun _ _ => ?_
  cases hentry.symm.trans hentry'
  rw [callGraph_agrees ha ha' hb hb' hconfines hdecls hagrees (entry_lt ha hentry) hcalls
    fun _ hm => hm]
  refine Traced.bind_congr_of_ok fun r hr => ?_
  cases hcalls.symm.trans hr
  dsimp only
  rw [Icfg.withBody_agrees hagrees fun m hm => Array.mem_toList_iff.mp hm,
    interConstants_agrees hdecls hagrees hclosed fun _ hm => hm]
  refine Traced.bind_congr_of_ok fun methods hmethods =>
    Traced.bind_congr_of_ok fun inter _ => ?_
  rw [mapM_congr fun m hm => analyzeMethod_agrees hdecls hagrees
    (Array.mem_toList_iff.mp ((Icfg.mem_withBody hmethods).mp hm).1) inter]

/-- Programs that differ in the bodies of unreachable methods only get the same report and the same
log, or fail in the same way. -/
theorem run_ignores_unreachable (ha : p.Accepted) (ha' : p'.Accepted) (hthis : p.OwnsThis)
    (hparams : p.OwnsParams) (hthis' : p'.OwnsThis) (hparams' : p'.OwnsParams)
    (hdecls : p'.withoutBodies = p.withoutBodies) (c : Config)
    (hdiffer : ∀ m, p'.body? m ≠ p.body? m → Unreachable c p m) : run c p' = run c p := by
  by_cases hstart : ∃ entry, checkConfig c = .ok () ∧ entryOf c p = .ok entry
  · obtain ⟨entry, hconfig, hentry⟩ := hstart
    by_cases hsame : ∀ m, p'.body? m = p.body? m
    · rw [Program.eq_of_withoutBodies hdecls hsame]
    · obtain ⟨_, hne⟩ := not_forall.mp hsame
      obtain ⟨calls, pointsTo, hcalls, -⟩ := hdiffer _ hne entry hconfig hentry
      have hb' := Program.bindsDeclared_of_owns hthis' hparams'
      refine run_agrees ha ha' hthis hparams hb' hdecls hentry hcalls fun m hm => ?_
      by_contra hne
      obtain ⟨_, _, hcalls', hnot⟩ := hdiffer m hne entry hconfig hentry
      cases hcalls.symm.trans hcalls'
      exact hnot hm
  · unfold run
    rw [entryOf_of_withoutBodies hdecls]
    exact Traced.bind_congr_of_ok fun _ hconfig => Traced.bind_congr_of_ok fun entry hentry =>
      absurd ⟨entry, hconfig, hentry⟩ hstart

/-! ### A method that a run does not reach -/

/-- The sample with another body for the `id` of `A`, which then returns its receiver. -/
def alteredBuilder : Builder :=
  { Builder.sample with methods := #[
      ⟨"A id(A)", ⟨0⟩, false, false,
        some ⟨some ⟨0⟩, [⟨1⟩], #[.assign ⟨1⟩ (.var ⟨0⟩), .ret (some ⟨1⟩)]⟩⟩,
      ⟨"void main(int)", ⟨0⟩, true, false, some .sample⟩,
      ⟨"A id(A)", ⟨1⟩, false, false, some (.identity ⟨5⟩ ⟨6⟩)⟩] }

def altered : Program := alteredBuilder.program

theorem accepted_altered : altered.Accepted := by
  have hbuilt := Builder.built_sample.setBody (rfl : Builder.setBody _ ⟨0⟩
    ⟨some ⟨0⟩, [⟨1⟩], #[.assign ⟨1⟩ (.var ⟨0⟩), .ret (some ⟨1⟩)]⟩ = .ok _)
  exact ⟨alteredBuilder, hbuilt, rfl⟩

theorem withoutBodies_altered : altered.withoutBodies = Program.sample.withoutBodies := by
  simp [Program.withoutBodies, altered, alteredBuilder, Program.sample, Builder.sample,
    Builder.program, MethodDecl.withoutBody]

theorem body?_altered (h : m ≠ ⟨0⟩) : altered.body? m = Program.sample.body? m := by
  obtain ⟨_ | i⟩ := m
  · exact absurd rfl h
  · rfl

theorem owns_altered : altered.OwnsThis ∧ altered.OwnsParams := by
  have hbinds : ∀ m b v, altered.body? m = some b → b.Binds v → altered.Owns m v := by
    intro m b v hb hv
    by_cases hm : m = ⟨0⟩
    · subst hm
      cases hb
      rcases hv with hv | hv
      · cases hv
        exact ⟨_, rfl, rfl⟩
      · cases List.mem_singleton.mp hv
        exact ⟨_, rfl, rfl⟩
    · rw [body?_altered hm] at hb
      rcases hv with hv | hv
      · exact Program.proper_sample.this m b v hb hv
      · exact Program.proper_sample.params m b hb v hv
  exact ⟨fun m b v hb hv => hbinds m b v hb (.inl hv), fun m b hb v hv => hbinds m b v hb (.inr hv)⟩

theorem unreachable_sample : Unreachable .default .sample ⟨0⟩ := by
  intro entry _ hentry
  cases hentry
  have hlt : (⟨1⟩ : MethodId).index < Program.sample.methods.size := by decide
  obtain ⟨calls, pointsTo, hcalls⟩ := callGraph_total (c := .default) Program.accepted_sample
    Program.proper_sample.classes Program.proper_sample.bindsDeclared hlt
  refine ⟨calls, pointsTo, hcalls, ?_⟩
  have hreached : ((callGraph .default .sample ⟨1⟩).result.map fun r => r.1.reachable) =
      .ok #[⟨1⟩, ⟨2⟩] := by decide +kernel
  rw [hcalls] at hreached
  have hreached : calls.reachable = #[⟨1⟩, ⟨2⟩] := Except.ok.inj hreached
  simp [hreached]

theorem run_ignores_unreachable_sample : Program.sample.Accepted ∧ altered.Accepted ∧
    altered.withoutBodies = Program.sample.withoutBodies ∧
    altered.body? ⟨0⟩ ≠ Program.sample.body? ⟨0⟩ ∧ run .default altered = run .default .sample := by
  have hproper := Program.proper_sample
  refine ⟨hproper.accepted, accepted_altered, withoutBodies_altered, by decide, ?_⟩
  refine run_ignores_unreachable hproper.accepted accepted_altered hproper.this hproper.params
    owns_altered.1 owns_altered.2 withoutBodies_altered .default fun m hm => ?_
  obtain rfl : m = ⟨0⟩ := by
    by_contra hne
    exact hm (body?_altered hne)
  exact unreachable_sample

end Pipeline
end ProgramAnalysis
