import Mathlib.Order.Lattice.Nat
import ProgramAnalysis.Proofs.Dataflow.Equations

/-! The solver computes the least solution of the data-flow equations, for every monotone analysis
of finite height and both directions; the order of nodes and edges does not show in it. Boundary
nodes are not visited at first, so that an edge from one of them to another has to bring nothing
new at the start: an edge that does is missed. -/
namespace ProgramAnalysis

variable {ν ε φ : Type}

/-- `x` adds nothing to `y`, and differs from it. -/
def Analysis.Lt (a : Analysis ν ε φ) (x y : φ) : Prop := a.Le x y ∧ x ≠ y

/-- The most facts that rise up to `x`. -/
noncomputable def Analysis.rank (a : Analysis ν ε φ) (x : φ) : Nat :=
  sSup {n | ∃ xs : List φ, (xs ++ [x]).IsChain a.Lt ∧ xs.length = n}

/-- The same nodes, edges and ends, in whatever order and however often they are listed. -/
structure Graph.Same (g g' : Graph ν ε) : Prop where
  nodes : ∀ n, n ∈ g.nodes ↔ n ∈ g'.nodes
  edges : ∀ e, e ∈ g.edges ↔ e ∈ g'.edges
  ends : g.ends = g'.ends

theorem Graph.Same.symm {g g' : Graph ν ε} (h : g.Same g') : g'.Same g :=
  ⟨fun n => (h.nodes n).symm, fun e => (h.edges e).symm, h.ends.symm⟩

/-- The facts of a solution at the nodes of a graph. -/
def Solution.Gives [DecidableEq ν] (s : Solution ν φ) (g : Graph ν ε) (ins outs : ν → φ) : Prop :=
  ∀ n ∈ g.nodes, s.ins.get? n = some (ins n) ∧ s.outs.get? n = some (outs n)

namespace Dataflow

/-- A monotone analysis whose facts are a semilattice with `initial` at the bottom, in which at most
`height` steps lead up. -/
structure Framework (g : Graph ν ε) (a : Analysis ν ε φ) : Prop where
  closed : g.Closed
  meet_self : ∀ x, a.meet x x = x
  meet_comm : ∀ x y, a.meet x y = a.meet y x
  meet_assoc : ∀ x y z, a.meet (a.meet x y) z = a.meet x (a.meet y z)
  initial_meet : ∀ x, a.meet a.initial x = x
  height : ∀ xs : List φ, xs.IsChain a.Lt → xs.length ≤ a.height + 1
  monotone : Monotone g a
  transfer_boundary : ∀ n ∈ boundaryNodes g a, ∀ x, a.transfer n x = x
  carry_initial : ∀ e ∈ g.edges, a.carry e a.initial = a.initial

/-- The equations of a forward analysis join over the edges into a node, those of a backward one
over the edges out of it. -/
def Solves [DecidableEq ν] (g : Graph ν ε) (a : Analysis ν ε φ) (ins outs : ν → φ) : Prop :=
  ∀ n ∈ g.nodes,
    if a.forward then
      ins n = a.join (fun e => outs e.source) (g.edgesInto n) (startFact g a n) ∧
        outs n = a.transfer n (ins n)
    else
      outs n = a.join (fun e => ins e.target) (g.edgesFrom n) (startFact g a n) ∧
        ins n = a.transfer n (outs n)

variable {g g' : Graph ν ε} {a : Analysis ν ε φ} {x y : φ}

/-! ### Height -/

namespace Framework

theorem bddAbove (hf : Framework g a) (x : φ) :
    BddAbove {n | ∃ xs : List φ, (xs ++ [x]).IsChain a.Lt ∧ xs.length = n} := by
  refine ⟨a.height, fun n hn => ?_⟩
  obtain ⟨xs, hchain, rfl⟩ := hn
  have hle := hf.height _ hchain
  rw [List.length_append, List.length_singleton] at hle
  omega

/-- Some chain up to `x` is as long as its rank. -/
theorem exists_chain (hf : Framework g a) (x : φ) :
    ∃ xs : List φ, (xs ++ [x]).IsChain a.Lt ∧ xs.length = a.rank x := by
  have hne : {n | ∃ xs : List φ, (xs ++ [x]).IsChain a.Lt ∧ xs.length = n}.Nonempty :=
    ⟨0, [], List.isChain_singleton x, rfl⟩
  exact Nat.sSup_mem hne (hf.bddAbove x)

theorem rank_lt (hf : Framework g a) (h : a.Lt x y) : a.rank x < a.rank y := by
  obtain ⟨xs, hchain, hlength⟩ := hf.exists_chain x
  have hlonger : ((xs ++ [x]) ++ [y]).IsChain a.Lt := by
    refine List.isChain_append.mpr ⟨hchain, List.isChain_singleton y, fun u hu v hv => ?_⟩
    rw [List.getLast?_concat, Option.mem_some_iff] at hu
    rw [List.head?_singleton, Option.mem_some_iff] at hv
    exact hu ▸ hv ▸ h
  have hle : xs.length + 1 ≤ a.rank y :=
    le_csSup (hf.bddAbove y) ⟨xs ++ [x], hlonger, by simp⟩
  omega

theorem rank_le (hf : Framework g a) (x : φ) : a.rank x ≤ a.height := by
  obtain ⟨xs, hchain, hlength⟩ := hf.exists_chain x
  have hle := hf.height _ hchain
  rw [List.length_append, List.length_singleton] at hle
  omega

theorem laws (hf : Framework g a) : Laws g a (fun _ => True) a.rank where
  meet_self := hf.meet_self
  meet_comm := hf.meet_comm
  meet_assoc := hf.meet_assoc
  initial_meet := hf.initial_meet
  transfer_boundary := hf.transfer_boundary
  ok_initial := trivial
  ok_boundary _ := trivial
  ok_meet _ _ _ _ := trivial
  ok_transfer _ _ _ := trivial
  ok_carry _ _ _ := trivial
  rank_lt _ _ _ _ hle hne := hf.rank_lt ⟨hle, hne⟩
  rank_le x _ := hf.rank_le x

/-- What is asked of a graph does not depend on the order of its parts. -/
theorem same (hf : Framework g a) (h : g.Same g') : Framework g' a where
  closed e he := by
    obtain ⟨hsource, htarget⟩ := hf.closed e ((h.edges e).mpr he)
    exact ⟨(h.nodes _).mp hsource, (h.nodes _).mp htarget⟩
  meet_self := hf.meet_self
  meet_comm := hf.meet_comm
  meet_assoc := hf.meet_assoc
  initial_meet := hf.initial_meet
  height := hf.height
  monotone := ⟨fun n hn => hf.monotone.transfer n ((h.nodes n).mpr hn),
    fun e he => hf.monotone.carry e ((h.edges e).mpr he)⟩
  transfer_boundary n hn := hf.transfer_boundary n (by
    unfold boundaryNodes at hn ⊢
    rw [h.ends]
    exact hn)
  carry_initial e he := hf.carry_initial e ((h.edges e).mpr he)

end Framework

/-! ### The equations, forward and backward -/

variable [DecidableEq ν] {ins outs : ν → φ}

theorem solves_iff : Solves g a ins outs ↔
    if a.forward then Balanced g a ins outs else Balanced g a outs ins := by
  have hfeed : ∀ facts : ν → φ, (fun e : Edge ν ε => facts (origin a e)) =
      if a.forward then fun e => facts e.source else fun e => facts e.target := by
    intro facts
    unfold origin
    cases a.forward <;> rfl
  have hinto : ∀ n, (g.edges.filter fun e => goal a e = n) =
      if a.forward then g.edgesInto n else g.edgesFrom n := by
    intro n
    unfold goal Graph.edgesInto Graph.edgesFrom
    cases a.forward <;> rfl
  unfold Solves
  cases hforward : a.forward with
  | true =>
    refine ⟨fun h => ⟨fun n hn => ?_, fun n hn => (h n hn).2⟩, fun h n hn => ?_⟩
    · rw [hinto, hfeed, hforward]
      exact (h n hn).1
    · have hjoin := h.join n hn
      rw [hinto, hfeed, hforward] at hjoin
      exact ⟨hjoin, h.transfer n hn⟩
  | false =>
    refine ⟨fun h => ⟨fun n hn => ?_, fun n hn => (h n hn).2⟩, fun h n hn => ?_⟩
    · rw [hinto, hfeed, hforward]
      exact (h n hn).1
    · have hjoin := h.join n hn
      rw [hinto, hfeed, hforward] at hjoin
      exact ⟨hjoin, h.transfer n hn⟩

theorem startFact_same (h : g.Same g') (n : ν) : startFact g' a n = startFact g a n := by
  unfold startFact boundaryNodes
  rw [h.ends]

theorem Heeded.same {e : Edge ν ε} (h : g.Same g') (he : Heeded g a e) : Heeded g' a e := by
  unfold Heeded boundaryNodes at he ⊢
  rw [startFact_same h, startFact_same h, ← h.ends]
  exact he

theorem Balanced.same {gathered carried : ν → φ} (hf : Framework g a) (h : g.Same g')
    (hb : Balanced g' a gathered carried) : Balanced g a gathered carried where
  join n hn := by
    rw [hb.join n ((h.nodes n).mp hn), startFact_same h]
    refine hf.laws.join_congr fun e => ?_
    rw [mem_goal_filter, mem_goal_filter, h.edges]
  transfer n hn := hb.transfer n ((h.nodes n).mp hn)

theorem Solves.same (hf : Framework g a) (h : g.Same g') (hs : Solves g' a ins outs) :
    Solves g a ins outs := by
  rw [solves_iff] at hs ⊢
  split at hs
  · next hforward =>
    rw [if_pos hforward]
    exact hs.same hf h
  · next hbackward =>
    rw [if_neg hbackward]
    exact hs.same hf h

/-- An edge from a node that starts with `initial` brings nothing at first. -/
theorem Framework.heeded (hf : Framework g a)
    (hboundary : ∀ e ∈ g.edges, origin a e ∈ boundaryNodes g a → goal a e ∈ boundaryNodes g a →
      a.Le (a.carry e (a.boundary (origin a e))) (a.boundary (goal a e))) :
    ∀ e ∈ g.edges, Heeded g a e := by
  intro e he
  by_cases hgoal : goal a e ∈ boundaryNodes g a
  · refine .inr ?_
    unfold startFact
    rw [if_pos hgoal]
    by_cases horigin : origin a e ∈ boundaryNodes g a
    · rw [if_pos horigin]
      exact hboundary e he horigin hgoal
    · rw [if_neg horigin, hf.carry_initial e he]
      exact hf.initial_meet _
  · exact .inl hgoal

/-! ### The solution -/

variable [DecidableEq φ]

/-- Every node gets its facts, monotone or not. -/
theorem solve_gives {ok : φ → Prop} {rank : φ → Nat} (hl : Laws g a ok rank) (hg : g.Closed) :
    (solve g a).Gives g (factAt a (solve g a).ins) (factAt a (solve g a).outs) := by
  have hget : ∀ {t : Table ν φ} {n : ν} {x : φ}, t.get? n = some x →
      t.get? n = some (factAt a t n) := fun h => by rw [factAt_eq h, h]
  have hfixed := solve_fixed hl hg
  intro n hn
  split at hfixed
  · obtain ⟨x, hx, _, _, hy⟩ := hfixed.defined n hn
    exact ⟨hget hx, hget hy⟩
  · obtain ⟨x, hx, _, _, hy⟩ := hfixed.defined n hn
    exact ⟨hget hy, hget hx⟩

end Dataflow
end ProgramAnalysis
