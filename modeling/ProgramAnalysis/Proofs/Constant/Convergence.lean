import ProgramAnalysis.Proofs.Constant.Calls
import ProgramAnalysis.Proofs.Dataflow.Convergence

/-! Constant propagation ends, within a method and across calls. A transferred value may come down
again, as when a divisor turns out to be zero; what gathers at a node meets all that was ever brought
there, so that it rises from `undef` over a constant to `nac` and never comes down. -/
namespace ProgramAnalysis

/-- Each variable stays as it is, or leaves `undef`, or becomes `nac`. -/
def Fact.RisesTo (f g : Fact) : Prop :=
  ∀ v, f.get v = .undef ∨ f.get v = g.get v ∨ g.get v = .nac

theorem Fact.risesTo_iff {f g : Fact} : f.RisesTo g ↔ f.meet g = g :=
  (forall_congr' fun _ => Value.meet_eq_right_iff.symm).trans Fact.meet_eq_right_iff.symm

namespace Constant

/-- The loop of the solver ends with these facts, and along it what gathers at a node only rises. -/
structure Converges (g : FlowGraph) (a : Analysis Node EdgeLabel Fact) (facts : Facts) : Prop where
  ends : ∃ t, Dataflow.Rounds g a (Dataflow.start g a) t ∧ t.queue = [] ∧
    t.iterations ≤ Dataflow.visitBound g a ∧ facts = t.solution a.forward
  rises : ∀ s t, Dataflow.Rounds g a (Dataflow.start g a) s → Dataflow.Rounds g a s t →
    ∀ n f, s.gathered.get? n = some f → ∃ f', t.gathered.get? n = some f' ∧ f.RisesTo f'

variable {p : Program}

theorem converges_of {g : FlowGraph} {a : Analysis Node EdgeLabel Fact} (hmeet : a.meet = Fact.meet)
    (hl : Dataflow.Laws g a (Fact.Within p) (Fact.rank p)) (hg : g.Closed) :
    Converges g a (Dataflow.solve g a) where
  ends := Dataflow.rounds_solve hl hg
  rises s t hs ht n f hf := by
    obtain ⟨f', hf', hle⟩ := Dataflow.rises_of_rounds hl hg hs ht n f hf
    unfold Analysis.Le at hle
    rw [hmeet] at hle
    exact ⟨f', hf', Fact.risesTo_iff.mpr hle⟩

/-- Constant propagation ends on every body, and across calls over every call graph that is found. -/
theorem analyses_converge (hparams : p.ParamsInRange) :
    (∀ m b, p.body? m = some b → ∃ facts,
      (analyze p m).result = .ok (Cfg.ofBody m b, facts) ∧
        Converges (Cfg.ofBody m b).graph (analysis p) facts) ∧
    ∀ calls, CallGraph.Found p calls → ∃ g facts, (Icfg.build p calls).result = .ok g ∧
      (solveIcfg p g).result = .ok facts ∧ Converges g.graph (interAnalysis p g) facts := by
  refine ⟨fun m b hb => ?_, fun calls hcalls => ?_⟩
  · exact ⟨_, analyze_eq hb (hparams m b hb), converges_of rfl (laws p m b) (Cfg.closed_ofBody m b)⟩
  · obtain ⟨g, hg⟩ := Icfg.build_total hcalls
    have hj := Icfg.build_joins hg
    exact ⟨g, _, hg, solveIcfg_eq hparams g, converges_of rfl (laws_inter hj) (hj.closed hcalls.closed)⟩

theorem paramsInRange_natives : natives.ParamsInRange := by
  rintro ⟨_ | _ | _ | i⟩ b hb v hv <;> cases hb
  · cases hv
  · rw [List.mem_singleton.mp hv]
    decide

theorem analyses_converge_natives :
    (∃ facts, (analyze natives ⟨2⟩).result = .ok (Cfg.ofBody ⟨2⟩ caller, facts) ∧
      Converges (Cfg.ofBody ⟨2⟩ caller).graph (analysis natives) facts) ∧
    ∃ g facts, (Icfg.build natives nativesCalls).result = .ok g ∧
      (solveIcfg natives g).result = .ok facts ∧ Converges g.graph (interAnalysis natives g) facts :=
  have h := analyses_converge paramsInRange_natives
  ⟨h.1 ⟨2⟩ caller rfl, h.2 nativesCalls found_natives⟩

end Constant
end ProgramAnalysis
