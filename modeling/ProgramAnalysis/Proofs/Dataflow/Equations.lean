import ProgramAnalysis.Proofs.Dataflow.Invariant

/-! Data-flow equations. What gathers at a node is its start fact joined with what its edges bring,
and what is carried over the node is the transfer of that. If transfer and edges are monotone, the
solver ends in the least facts that satisfy the equations. -/
namespace ProgramAnalysis

variable {ν ε φ : Type}

/-- `start` joined with what edges make of the facts they carry. -/
def Analysis.join (a : Analysis ν ε φ) (facts : Edge ν ε → φ) (es : List (Edge ν ε)) (start : φ) :
    φ :=
  es.foldr (fun e x => a.meet (a.carry e (facts e)) x) start

namespace Dataflow

variable {g : Graph ν ε} {a : Analysis ν ε φ} {ok : φ → Prop} {rank : φ → Nat} {x y z : φ}
  {es fs : List (Edge ν ε)} {facts : Edge ν ε → φ}

/-! ### Joins -/

namespace Laws

theorem le_antisymm (hl : Laws g a ok rank) (hxy : a.Le x y) (hyx : a.Le y x) : x = y := by
  unfold Analysis.Le at hxy hyx
  rw [← hyx, hl.meet_comm, hxy]

theorem meet_le_iff (hl : Laws g a ok rank) : a.Le (a.meet x y) z ↔ a.Le x z ∧ a.Le y z := by
  refine ⟨fun h => ?_, fun ⟨hx, hy⟩ => ?_⟩
  · exact ⟨hl.le_trans (hl.left_le_meet x y) h, hl.le_trans (hl.right_le_meet x y) h⟩
  · unfold Analysis.Le at *
    rw [hl.meet_assoc, hy, hx]

/-- A join is the least fact above all that it joins. -/
theorem join_le_iff (hl : Laws g a ok rank) :
    a.Le (a.join facts es x) z ↔ a.Le x z ∧ ∀ e ∈ es, a.Le (a.carry e (facts e)) z := by
  induction es with
  | nil => simp [Analysis.join]
  | cons e es ih =>
    have hcons : a.join facts (e :: es) x = a.meet (a.carry e (facts e)) (a.join facts es x) := rfl
    rw [hcons, hl.meet_le_iff, ih, List.forall_mem_cons]
    exact and_left_comm

theorem le_join (hl : Laws g a ok rank) : a.Le x (a.join facts es x) :=
  (hl.join_le_iff.mp (hl.le_refl _)).1

theorem carry_le_join (hl : Laws g a ok rank) (facts : Edge ν ε → φ) {e : Edge ν ε} (he : e ∈ es) :
    a.Le (a.carry e (facts e)) (a.join facts es x) :=
  (hl.join_le_iff.mp (hl.le_refl _)).2 e he

/-- Neither order nor repetition matters to a join. -/
theorem join_congr (hl : Laws g a ok rank) (h : ∀ e, e ∈ es ↔ e ∈ fs) :
    a.join facts es x = a.join facts fs x := by
  refine hl.le_antisymm (hl.join_le_iff.mpr ⟨hl.le_join, fun e he => ?_⟩)
    (hl.join_le_iff.mpr ⟨hl.le_join, fun e he => ?_⟩)
  · exact hl.carry_le_join facts ((h e).mp he)
  · exact hl.carry_le_join facts ((h e).mpr he)

end Laws

/-! ### Equations -/

/-- A larger fact makes no smaller one. -/
structure Monotone (g : Graph ν ε) (a : Analysis ν ε φ) : Prop where
  transfer : ∀ n ∈ g.nodes, ∀ x y, a.Le x y → a.Le (a.transfer n x) (a.transfer n y)
  carry : ∀ e ∈ g.edges, ∀ x y, a.Le x y → a.Le (a.carry e x) (a.carry e y)

variable [DecidableEq ν]

/-- The equations hold at every node. -/
structure Balanced (g : Graph ν ε) (a : Analysis ν ε φ) (gathered carried : ν → φ) : Prop where
  join : ∀ n ∈ g.nodes, gathered n = a.join (fun e => carried (origin a e))
    (g.edges.filter fun e => goal a e = n) (startFact g a n)
  transfer : ∀ n ∈ g.nodes, carried n = a.transfer n (gathered n)

/-- The facts lie above all that the equations ask for. -/
structure Bounds (g : Graph ν ε) (a : Analysis ν ε φ) (gathered carried : ν → φ) : Prop where
  start : ∀ n ∈ g.nodes, a.Le (startFact g a n) (gathered n)
  edge : ∀ e ∈ g.edges, a.Le (a.carry e (carried (origin a e))) (gathered (goal a e))
  transfer : ∀ n ∈ g.nodes, a.Le (a.transfer n (gathered n)) (carried n)

theorem mem_goal_filter {n : ν} {e : Edge ν ε} :
    e ∈ g.edges.filter (fun e => goal a e = n) ↔ e ∈ g.edges ∧ goal a e = n := by
  simp

theorem Balanced.bounds {gathered carried : ν → φ} (hl : Laws g a ok rank) (hg : g.Closed)
    (h : Balanced g a gathered carried) : Bounds g a gathered carried where
  start n hn := by
    rw [h.join n hn]
    exact hl.le_join
  edge e he := by
    rw [h.join (goal a e) (goal_mem hg he)]
    exact hl.carry_le_join (fun e => carried (origin a e)) (mem_goal_filter.mpr ⟨he, rfl⟩)
  transfer n hn := by
    rw [h.transfer n hn]
    exact hl.le_refl _

/-! ### Nothing is superfluous -/

variable {s t : State ν φ} {n : ν} {gathered carried : ν → φ}

/-- The facts of the state lie below the given ones. -/
structure Below (g : Graph ν ε) (a : Analysis ν ε φ) (gathered carried : ν → φ) (s : State ν φ) :
    Prop where
  gathered : ∀ n ∈ g.nodes, ∀ x, s.gathered.get? n = some x → a.Le x (gathered n)
  carried : ∀ n ∈ g.nodes, ∀ y, s.carried.get? n = some y → a.Le y (carried n)

theorem kept_below (hl : Laws g a ok rank) (hg : g.Closed) (hm : Monotone g a)
    (hb : Bounds g a gathered carried) : Kept g a (fun n x => n ∈ g.nodes → a.Le x (gathered n))
      fun n y => n ∈ g.nodes → a.Le y (carried n) where
  start n hn := by
    refine ⟨fun _ => hb.start n hn, fun _ => ?_⟩
    by_cases hboundary : n ∈ boundaryNodes g a
    · rw [← hl.transfer_boundary n hboundary (startFact g a n)]
      exact hl.le_trans (hm.transfer n hn _ _ (hb.start n hn)) (hb.transfer n hn)
    · have hinitial : startFact g a n = a.initial := if_neg hboundary
      rw [hinitial]
      exact hl.initial_meet _
  transfer n hn x hx _ := hl.le_trans (hm.transfer n hn _ _ (hx hn)) (hb.transfer n hn)
  carry e he y hy _ := hl.le_trans (hm.carry e he _ _ (hy (origin_mem hg he))) (hb.edge e he)
  meet _ _ _ hx hy hn := hl.meet_le_iff.mpr ⟨hx hn, hy hn⟩

/-- The fact at a node, which a solution has at every node of the graph. -/
def factAt (a : Analysis ν ε φ) (t : Table ν φ) (n : ν) : φ := (t.get? n).getD a.initial

theorem factAt_eq {t : Table ν φ} (h : t.get? n = some x) : factAt a t n = x := by
  unfold factAt
  rw [h]
  rfl

variable [DecidableEq φ]

/-! ### The solution -/

/-- The final state lies below whatever bounds the equations. -/
theorem final_below (hl : Laws g a ok rank) (hg : g.Closed) (hm : Monotone g a)
    (hb : Bounds g a gathered carried) :
    Below g a gathered carried (run g a (visitBound g a) (start g a)) := by
  obtain ⟨hgathered, hcarried⟩ := holds_run hl hg (kept_below hl hg hm hb)
  exact ⟨fun n hn x hx => hgathered n x hx hn, fun n hn y hy => hcarried n y hy hn⟩

/-- The final state satisfies the equations, and lies below all that bounds them: what it has beyond
the demands of the equations could be left out. -/
theorem run_balanced (hl : Laws g a ok rank) (hg : g.Closed) (hm : Monotone g a)
    (hheeded : ∀ e ∈ g.edges, Heeded g a e) {s : State ν φ}
    (hs : s = run g a (visitBound g a) (start g a)) :
    Balanced g a (factAt a s.gathered) (factAt a s.carried) ∧
      ∀ gathered carried, Bounds g a gathered carried → Below g a gathered carried s := by
  obtain ⟨hinv, hnil⟩ := run_settled hl hg _ (inv_start hl) (potential_start_le rank)
  rw [← hs] at hinv hnil
  have hleast : ∀ gathered carried, Bounds g a gathered carried → Below g a gathered carried s :=
    fun _ _ hb => hs ▸ final_below hl hg hm hb
  have hsettled : ∀ n ∈ g.nodes, Settled g a s n := fun n hn => hinv.settled_of_nil hnil hn
  have hcarried : ∀ n ∈ g.nodes, factAt a s.carried n = a.transfer n (factAt a s.gathered n) := by
    intro n hn
    obtain ⟨x, _, hx, _⟩ := hinv.defined n hn
    rw [factAt_eq hx, factAt_eq (hsettled n hn x hx).1]
  let demand (n : ν) : φ := a.join (fun e => factAt a s.carried (origin a e))
    (g.edges.filter fun e => goal a e = n) (startFact g a n)
  have hdemand : ∀ n ∈ g.nodes, a.Le (demand n) (factAt a s.gathered n) := by
    intro n hn
    obtain ⟨x, _, hx, _⟩ := hinv.defined n hn
    rw [factAt_eq hx]
    refine hl.join_le_iff.mpr ⟨hinv.start_le n x hx, fun e he => ?_⟩
    obtain ⟨he, hgoal⟩ := mem_goal_filter.mp he
    obtain ⟨_, f, _, hf⟩ := hinv.defined _ (origin_mem hg he)
    rw [factAt_eq hf]
    exact (hsettled n hn x hx).2 e he hgoal (hheeded e he) f hf
  -- the demands bound themselves, as transfer and edges are monotone
  have hbounds : Bounds g a demand fun n => a.transfer n (demand n) := by
    refine ⟨fun n _ => hl.le_join, fun e he => ?_, fun n _ => hl.le_refl _⟩
    have horigin := origin_mem (a := a) hg he
    have htransfer := hm.transfer _ horigin _ _ (hdemand _ horigin)
    rw [← hcarried _ horigin] at htransfer
    exact hl.le_trans (hm.carry e he _ _ htransfer)
      (hl.carry_le_join (fun e => factAt a s.carried (origin a e))
        (mem_goal_filter.mpr ⟨he, rfl⟩))
  refine ⟨⟨fun n hn => hl.le_antisymm ?_ (hdemand n hn), hcarried⟩, hleast⟩
  obtain ⟨x, _, hx, _⟩ := hinv.defined n hn
  rw [factAt_eq hx]
  exact (hleast _ _ hbounds).gathered n hn x hx

end Dataflow
end ProgramAnalysis
