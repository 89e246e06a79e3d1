import Mathlib.Data.List.Basic
import ProgramAnalysis.Proofs.Dataflow.Problem

/-! The solver applies an analysis to the nodes and edges of its graph only: analyses that agree there
have one solution, visits and all. -/
namespace ProgramAnalysis

variable {ν ε φ : Type} [DecidableEq ν]

/-- The analyses do the same on the graph. -/
structure Analysis.AgreesOn (g : Graph ν ε) (a a' : Analysis ν ε φ) : Prop where
  forward : a'.forward = a.forward
  initial : a'.initial = a.initial
  meet : a'.meet = a.meet
  height : a'.height = a.height
  boundary : ∀ n ∈ g.nodes, a'.boundary n = a.boundary n
  transfer : ∀ n ∈ g.nodes, a'.transfer n = a.transfer n
  carry : ∀ e ∈ g.edges, a'.carry e = a.carry e

namespace Dataflow

variable {g : Graph ν ε} {a a' : Analysis ν ε φ} {s : State ν φ} {n : ν}

theorem startFacts_congr (h : a.AgreesOn g a') : startFacts g a' = startFacts g a := by
  have hboundary : boundaryNodes g a' = boundaryNodes g a := by
    unfold boundaryNodes
    rw [h.forward]
  refine List.foldl_ext _ _ _ fun t n hn => ?_
  unfold startFact
  rw [hboundary, h.boundary n hn, h.initial]

theorem start_congr (h : a.AgreesOn g a') : start g a' = start g a := by
  unfold start startQueue boundaryNodes
  rw [startFacts_congr h, h.forward]

theorem gather_congr (h : a.AgreesOn g a') (s : State ν φ) (n : ν) (x : φ) :
    gather g a' s n x = gather g a s n x := by
  have hfeeding : feeding g a' n = feeding g a n := by
    unfold feeding
    rw [h.forward]
  unfold gather
  rw [hfeeding]
  refine List.foldl_ext _ _ _ fun acc e he => ?_
  obtain ⟨e, source⟩ := e
  dsimp only
  rw [h.meet, h.carry e (mem_feeding.mp he).1]

section Runs

variable [DecidableEq φ]

theorem visit_congr (h : a.AgreesOn g a') (hn : n ∈ g.nodes) : visit g a' s n = visit g a s n := by
  have hbehind : behind g a' n = behind g a n := by
    unfold behind
    rw [h.forward]
  unfold visit
  simp only [gather_congr h, h.transfer n hn, hbehind]

theorem queue_visit (hg : g.Closed) (hs : ∀ k ∈ s.queue, k ∈ g.nodes) :
    ∀ k ∈ (visit g a s n).queue, k ∈ g.nodes := by
  unfold visit
  dsimp only
  split
  · split
    · exact hs
    · intro k hk
      rcases mem_foldl_push.mp hk with hk | hk
      · exact hs k hk
      · obtain ⟨e, he, -, rfl⟩ := mem_behind.mp hk
        exact goal_mem hg he
  · exact hs

theorem run_congr (h : a.AgreesOn g a') (hg : g.Closed) (fuel : Nat)
    (hs : ∀ k ∈ s.queue, k ∈ g.nodes) : run g a' fuel s = run g a fuel s := by
  induction fuel generalizing s with
  | zero => rfl
  | succ fuel ih =>
    unfold run
    split
    · rfl
    · next n queue hqueue =>
      rw [hqueue] at hs
      obtain ⟨hn, hrest⟩ := List.forall_mem_cons.mp hs
      rw [visit_congr h hn]
      exact ih (queue_visit hg hrest)

theorem solve_congr (h : a.AgreesOn g a') (hg : g.Closed) : solve g a' = solve g a := by
  unfold solve visitBound
  rw [start_congr h, h.height, h.forward, run_congr h hg _ fun n hn => (mem_startQueue.mp hn).1]

end Runs

end Dataflow
end ProgramAnalysis
