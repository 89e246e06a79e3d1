import Mathlib.Logic.Relation
import ProgramAnalysis.Proofs.Dataflow.Solver

/-! The loop of the work list solver, visit by visit: the number of visits is bounded, and what has
gathered at a node stays below what gathers there later. The transfer need not be monotone. -/
namespace ProgramAnalysis.Dataflow

variable {ν ε φ : Type} [DecidableEq ν] [DecidableEq φ] {g : Graph ν ε} {a : Analysis ν ε φ}
  {ok : φ → Prop} {rank : φ → Nat} {s t : State ν φ}

/-- One round of the loop: the node that has waited longest is visited. -/
def Round (g : Graph ν ε) (a : Analysis ν ε φ) (s t : State ν φ) : Prop :=
  ∃ n queue, s.queue = n :: queue ∧ t = visit g a { s with queue } n

/-- Rounds, as many as there may be. -/
abbrev Rounds (g : Graph ν ε) (a : Analysis ν ε φ) : State ν φ → State ν φ → Prop :=
  Relation.ReflTransGen (Round g a)

def Rises (a : Analysis ν ε φ) (s t : State ν φ) : Prop :=
  ∀ n x, s.gathered.get? n = some x → ∃ y, t.gathered.get? n = some y ∧ a.Le x y

/-- A bounded run is made of rounds. -/
theorem rounds_run (fuel : Nat) (s : State ν φ) : Rounds g a s (run g a fuel s) := by
  induction fuel generalizing s with
  | zero => exact .refl
  | succ fuel ih =>
    unfold run
    split
    · exact .refl
    · next n queue hqueue => exact .head ⟨n, queue, hqueue, rfl⟩ (ih _)

theorem visit_iterations (s : State ν φ) (n : ν) :
    (visit g a s n).iterations = s.iterations + 1 := by
  unfold visit
  dsimp only
  split
  · split <;> rfl
  · rfl

theorem Round.iterations (h : Round g a s t) : t.iterations = s.iterations + 1 := by
  obtain ⟨n, queue, -, rfl⟩ := h
  exact visit_iterations _ _

/-- A round visits a node of the graph. -/
theorem Inv.visited_of_round (hs : Inv g a ok s) (h : Round g a s t) :
    ∃ n queue x, s.queue = n :: queue ∧ n ∈ g.nodes ∧ s.gathered.get? n = some x ∧
      Visited g a { s with queue } n x t := by
  obtain ⟨n, queue, hqueue, rfl⟩ := h
  have hn : n ∈ g.nodes := hs.queue n (hqueue ▸ List.mem_cons_self)
  obtain ⟨x, y, hx, hy⟩ := hs.defined n hn
  exact ⟨n, queue, x, hqueue, hn, hx, visited_visit hx hy⟩

/-- What is gathered anew lies above what had gathered before, whatever the transfer does with it,
and a round is paid for by the potential. -/
theorem Inv.round (hl : Laws g a ok rank) (hg : g.Closed) (hs : Inv g a ok s)
    (h : Round g a s t) : Inv g a ok t ∧ Rises a s t ∧
      t.iterations + potential g a rank t ≤ s.iterations + potential g a rank s := by
  obtain ⟨n, queue, x, hqueue, -, hx, hv⟩ := hs.visited_of_round h
  obtain ⟨-, hle, -⟩ := gather_spec (n := n) hl hs.ok_carried (hs.ok_gathered n x hx)
  refine ⟨hs.visited hl hg hqueue hx hv, fun k z hz => ?_, ?_⟩
  · rw [hv.gathered]
    split
    · next hnk =>
      subst hnk
      rw [hx] at hz
      cases hz
      exact ⟨_, rfl, hle⟩
    · exact ⟨z, hz, hl.le_refl z⟩
  · have hlt := potential_visited_lt hl hs hqueue hx hv
    rw [h.iterations]
    omega

theorem Inv.rounds (hl : Laws g a ok rank) (hg : g.Closed) (hs : Inv g a ok s)
    (h : Rounds g a s t) : Inv g a ok t ∧ Rises a s t ∧
      t.iterations + potential g a rank t ≤ s.iterations + potential g a rank s := by
  induction h with
  | refl => exact ⟨hs, fun n x hx => ⟨x, hx, hl.le_refl x⟩, Nat.le_refl _⟩
  | tail _ hround ih =>
    obtain ⟨ht, hrises, hcost⟩ := ih
    obtain ⟨hu, hrises', hcost'⟩ := ht.round hl hg hround
    refine ⟨hu, fun n x hx => ?_, Nat.le_trans hcost' hcost⟩
    obtain ⟨y, hy, hxy⟩ := hrises n x hx
    obtain ⟨z, hz, hyz⟩ := hrises' n y hy
    exact ⟨z, hz, hl.le_trans hxy hyz⟩

/-- The loop is over after a bounded number of visits, and leaves what `solve` returns. -/
theorem rounds_solve (hl : Laws g a ok rank) (hg : g.Closed) :
    ∃ t, Rounds g a (start g a) t ∧ t.queue = [] ∧ t.iterations ≤ visitBound g a ∧
      solve g a = t.solution a.forward := by
  have hrounds := rounds_run (g := g) (a := a) (visitBound g a) (start g a)
  obtain ⟨-, -, hcost⟩ := (inv_start hl).rounds hl hg hrounds
  obtain ⟨-, hnil⟩ := run_settled hl hg _ (inv_start hl) (potential_start_le rank)
  have hstart := potential_start_le (g := g) (a := a) rank
  have hzero : (start g a).iterations = 0 := rfl
  exact ⟨_, hrounds, hnil, by omega, rfl⟩

theorem rises_of_rounds (hl : Laws g a ok rank) (hg : g.Closed)
    (hs : Rounds g a (start g a) s) (ht : Rounds g a s t) : Rises a s t := by
  obtain ⟨hinv, -⟩ := (inv_start hl).rounds hl hg hs
  exact (hinv.rounds hl hg ht).2.1

end ProgramAnalysis.Dataflow
