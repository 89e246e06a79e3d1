import ProgramAnalysis.Proofs.Dataflow.Convergence

/-! Single facts along the loop of the work list solver. A property that facts start with, and that
transfer, edges and meet keep, holds of every fact of the solution. What gathers behind nodes whose
transfer is monotone comes from facts that lie below those carried in the end. Neither asks the
whole problem to be monotone. -/
namespace ProgramAnalysis.Dataflow

variable {ν ε φ : Type} [DecidableEq ν] {g : Graph ν ε} {a : Analysis ν ε φ} {ok : φ → Prop}
  {rank : φ → Nat} {s t : State ν φ} {n : ν} {x y z : φ} {P Q : ν → φ → Prop}

/-! ### Properties that are kept -/

/-- A property `P` of what gathers at each node and one, `Q`, of what is carried over it, which the
start has and the solver keeps. -/
structure Kept (g : Graph ν ε) (a : Analysis ν ε φ) (P Q : ν → φ → Prop) : Prop where
  start : ∀ n ∈ g.nodes, P n (startFact g a n) ∧ Q n (startFact g a n)
  transfer : ∀ n ∈ g.nodes, ∀ x, P n x → Q n (a.transfer n x)
  carry : ∀ e ∈ g.edges, ∀ y, Q (origin a e) y → P (goal a e) (a.carry e y)
  meet : ∀ n x y, P n x → P n y → P n (a.meet x y)

/-- The facts of the state have the properties. -/
structure Holds (P Q : ν → φ → Prop) (s : State ν φ) : Prop where
  gathered : ∀ n x, s.gathered.get? n = some x → P n x
  carried : ∀ n y, s.carried.get? n = some y → Q n y

theorem holds_start (hk : Kept g a P Q) : Holds P Q (start g a) := by
  refine ⟨fun n x hx => ?_, fun n y hy => ?_⟩
  · obtain ⟨hn, rfl⟩ := of_get?_startFacts hx
    exact (hk.start n hn).1
  · obtain ⟨hn, rfl⟩ := of_get?_startFacts hy
    exact (hk.start n hn).2

theorem Holds.visited (hs : Holds P Q s) (hk : Kept g a P Q) (hn : n ∈ g.nodes)
    (hx : s.gathered.get? n = some x) (hv : Visited g a s n x t) : Holds P Q t := by
  have hgather : P n (gather g a s n x) := by
    refine gather_induction (hk.meet n) (hs.gathered n x hx) fun e he hgoal f hf => ?_
    exact hgoal ▸ hk.carry e he f (hs.carried _ f hf)
  refine ⟨fun k y hy => ?_, fun k y hy => ?_⟩
  · rw [hv.gathered] at hy
    split at hy
    · next hnk =>
      cases hy
      exact hnk ▸ hgather
    · exact hs.gathered k y hy
  · rw [hv.carried] at hy
    split at hy
    · next hnk =>
      cases hy
      exact hnk ▸ hk.transfer n hn _ hgather
    · exact hs.carried k y hy

variable [DecidableEq φ]

theorem holds_rounds (hl : Laws g a ok rank) (hg : g.Closed) (hk : Kept g a P Q)
    (h : Rounds g a (start g a) s) : Holds P Q s := by
  induction h with
  | refl => exact holds_start hk
  | @tail s s' hrounds hround ih =>
    obtain ⟨hinv, -⟩ := (inv_start hl).rounds hl hg hrounds
    obtain ⟨n, queue, x, -, hn, hx, hv⟩ := hinv.visited_of_round hround
    have hpop : Holds P Q { s with queue } := ⟨ih.gathered, ih.carried⟩
    exact hpop.visited hk hn hx hv

/-- What the solver keeps holds of the state that it ends in. -/
theorem holds_run (hl : Laws g a ok rank) (hg : g.Closed) (hk : Kept g a P Q) :
    Holds P Q (run g a (visitBound g a) (start g a)) :=
  holds_rounds hl hg hk (rounds_run _ _)

/-! ### What gathers behind monotone nodes -/

/-- The carried fact may lag behind: it follows from what had gathered at the last visit. -/
theorem carried_le_transfer (hl : Laws g a ok rank) (hg : g.Closed)
    (h : Rounds g a (start g a) s) (hx : s.gathered.get? n = some x)
    (hy : s.carried.get? n = some y) : a.Le y (a.transfer n x) := by
  induction h generalizing x y with
  | refl =>
    obtain ⟨-, rfl⟩ := of_get?_startFacts hx
    obtain ⟨-, rfl⟩ := of_get?_startFacts hy
    by_cases hboundary : n ∈ boundaryNodes g a
    · rw [hl.transfer_boundary n hboundary]
      exact hl.le_refl _
    · have hinitial : startFact g a n = a.initial := if_neg hboundary
      rw [hinitial]
      exact hl.initial_meet _
  | tail hrounds hround ih =>
    obtain ⟨hinv, -⟩ := (inv_start hl).rounds hl hg hrounds
    obtain ⟨k, queue, x', -, -, -, hv⟩ := hinv.visited_of_round hround
    rw [hv.gathered] at hx
    rw [hv.carried] at hy
    by_cases hk : k = n
    · rw [if_pos hk] at hx hy
      cases hx
      cases hy
      exact hk ▸ hl.le_refl _
    · rw [if_neg hk] at hx hy
      exact ih hx hy

/-- Where the transfer is monotone, what is carried lies below what is carried in the end. -/
theorem carried_le (hl : Laws g a ok rank) (hg : g.Closed) (hs : Rounds g a (start g a) s)
    (hst : Rounds g a s t) (hnil : t.queue = []) (hn : n ∈ g.nodes)
    (hmono : ∀ x y, a.Le x y → a.Le (a.transfer n x) (a.transfer n y))
    (hy : s.carried.get? n = some y) (hz : t.carried.get? n = some z) : a.Le y z := by
  obtain ⟨hinv, -⟩ := (inv_start hl).rounds hl hg hs
  obtain ⟨hend, hrises, -⟩ := hinv.rounds hl hg hst
  obtain ⟨x, _, hx, _⟩ := hinv.defined n hn
  obtain ⟨x', hx', hle⟩ := hrises n x hx
  rw [(hend.settled_of_nil hnil hn x' hx').1] at hz
  cases hz
  exact hl.le_trans (carried_le_transfer hl hg hs hx hy) (hmono x x' hle)

/-- What gathers behind monotone nodes has each property that its start has, that the meet keeps,
and that edges bring with all facts below those carried in the end. -/
theorem gathered_induction {P : φ → Prop} (hl : Laws g a ok rank) (hg : g.Closed)
    (ht : Rounds g a (start g a) t) (hnil : t.queue = [])
    (hmeet : ∀ x y, P x → P y → P (a.meet x y)) (hstart : P (startFact g a n))
    (hmono : ∀ e ∈ g.edges, goal a e = n → ∀ x y, a.Le x y →
      a.Le (a.transfer (origin a e) x) (a.transfer (origin a e) y))
    (hedge : ∀ e ∈ g.edges, goal a e = n → ∀ y z, a.Le y z →
      t.carried.get? (origin a e) = some z → P (a.carry e y))
    (hx : t.gathered.get? n = some x) : P x := by
  have hstates : ∀ s, Rounds g a (start g a) s → Rounds g a s t →
      ∀ x, s.gathered.get? n = some x → P x := by
    intro s hs
    induction hs with
    | refl =>
      intro _ x hx
      obtain ⟨-, rfl⟩ := of_get?_startFacts hx
      exact hstart
    | @tail s s' hs hround ih =>
      intro hst x hx
      have hst : Rounds g a s t := hst.head hround
      obtain ⟨hinv, -⟩ := (inv_start hl).rounds hl hg hs
      obtain ⟨k, queue, x', -, -, hx', hv⟩ := hinv.visited_of_round hround
      rw [hv.gathered] at hx
      split at hx
      · next hkn =>
        cases hx
        subst hkn
        refine gather_induction hmeet (ih hst x' hx') fun e he hgoal y hy => ?_
        have horigin := origin_mem (a := a) hg he
        obtain ⟨hend, -⟩ := hinv.rounds hl hg hst
        obtain ⟨_, z, _, hz⟩ := hend.defined _ horigin
        exact hedge e he hgoal y z
          (carried_le hl hg hs hst hnil horigin (hmono e he hgoal) hy hz) hz
      · exact ih hst x hx
  exact hstates t ht .refl x hx

end ProgramAnalysis.Dataflow
