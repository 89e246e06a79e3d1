import ProgramAnalysis.Proofs.Counting
import ProgramAnalysis.Proofs.Dataflow.Problem

/-! The work list solver ends with facts that settle every node: what is carried over a node is the
transfer of what has gathered there, and all that its edges bring has gathered. A gathered fact
only rises, so that the height of the facts bounds the visits. -/
namespace ProgramAnalysis.Dataflow

variable {ν ε φ : Type} [DecidableEq ν] {g : Graph ν ε} {a : Analysis ν ε φ} {ok : φ → Prop}
  {rank : φ → Nat} {s t : State ν φ} {n k : ν} {x y : φ} {queue : List ν}

/-! ### Visits -/

/-- Nothing more has to be done at `n`. -/
def Settled (g : Graph ν ε) (a : Analysis ν ε φ) (s : State ν φ) (n : ν) : Prop :=
  ∀ x, s.gathered.get? n = some x → s.carried.get? n = some (a.transfer n x) ∧
    ∀ e ∈ g.edges, goal a e = n → Heeded g a e →
      ∀ f, s.carried.get? (origin a e) = some f → a.Le (a.carry e f) x

/-- What each visit keeps: a node that is not settled waits. -/
structure Inv (g : Graph ν ε) (a : Analysis ν ε φ) (ok : φ → Prop) (s : State ν φ) : Prop where
  defined : ∀ n ∈ g.nodes, ∃ x y, s.gathered.get? n = some x ∧ s.carried.get? n = some y
  ok_gathered : ∀ n x, s.gathered.get? n = some x → ok x
  ok_carried : ∀ n y, s.carried.get? n = some y → ok y
  start_le : ∀ n x, s.gathered.get? n = some x → a.Le (startFact g a n) x
  queue : ∀ n ∈ s.queue, n ∈ g.nodes
  settled : ∀ n ∈ g.nodes, n ∈ s.queue ∨ Settled g a s n

theorem Inv.settled_of_nil (hs : Inv g a ok s) (hnil : s.queue = []) (hn : n ∈ g.nodes) :
    Settled g a s n := by
  refine (hs.settled n hn).resolve_left ?_
  rw [hnil]
  exact List.not_mem_nil

/-- `t` is `s` after a visit of `n`, where `x` had gathered. -/
structure Visited (g : Graph ν ε) (a : Analysis ν ε φ) (s : State ν φ) (n : ν) (x : φ)
    (t : State ν φ) : Prop where
  gathered : ∀ k, t.gathered.get? k =
    if n = k then some (gather g a s n x) else s.gathered.get? k
  carried : ∀ k, t.carried.get? k =
    if n = k then some (a.transfer n (gather g a s n x)) else s.carried.get? k
  queue : s.carried.get? n = some (a.transfer n (gather g a s n x)) ∧ t.queue = s.queue ∨
    s.carried.get? n ≠ some (a.transfer n (gather g a s n x)) ∧
      t.queue = (behind g a n).foldl push s.queue

theorem Visited.mem_queue (hv : Visited g a s n x t) (hk : k ∈ s.queue) : k ∈ t.queue := by
  rcases hv.queue with ⟨_, hq⟩ | ⟨_, hq⟩
  · exact hq ▸ hk
  · rw [hq]
    exact mem_foldl_push.mpr (.inl hk)

/-- An edge out of `n` either brings what it brought before, or its goal waits. -/
theorem Visited.carried_or_mem (hv : Visited g a s n x t) {e : Edge ν ε} (he : e ∈ g.edges) :
    t.carried.get? (origin a e) = s.carried.get? (origin a e) ∨ goal a e ∈ t.queue := by
  by_cases hn : n = origin a e
  · rcases hv.queue with ⟨hsame, _⟩ | ⟨_, hq⟩
    · refine .inl ?_
      rw [hv.carried, if_pos hn, ← hn]
      exact hsame.symm
    · refine .inr ?_
      rw [hq]
      exact mem_foldl_push.mpr (.inr (mem_behind.mpr ⟨e, he, hn.symm, rfl⟩))
  · exact .inl (by rw [hv.carried, if_neg hn])

/-- The visited node is settled, unless an edge from it to itself has it wait again. -/
theorem Visited.settled (hv : Visited g a s n x t)
    (hedge : ∀ e ∈ g.edges, goal a e = n → ∀ f, s.carried.get? (origin a e) = some f →
      a.Le (a.carry e f) (gather g a s n x)) : n ∈ t.queue ∨ Settled g a t n := by
  by_cases hwait : n ∈ t.queue
  · exact .inl hwait
  · refine .inr fun y hy => ?_
    rw [hv.gathered, if_pos rfl] at hy
    cases hy
    refine ⟨by rw [hv.carried, if_pos rfl], fun e he hgoal _ f hf => ?_⟩
    rcases hv.carried_or_mem he with hsame | hmem
    · rw [hsame] at hf
      exact hedge e he hgoal f hf
    · exact absurd (hgoal ▸ hmem) hwait

/-- Another node stays settled, unless the change at `n` concerns it. -/
theorem Visited.settled_of_ne (hv : Visited g a s n x t) (hnk : n ≠ k) (hk : Settled g a s k) :
    k ∈ t.queue ∨ Settled g a t k := by
  by_cases hwait : k ∈ t.queue
  · exact .inl hwait
  · refine .inr fun y hy => ?_
    rw [hv.gathered, if_neg hnk] at hy
    obtain ⟨hcarried, hall⟩ := hk y hy
    refine ⟨by rw [hv.carried, if_neg hnk]; exact hcarried, fun e he hgoal hb f hf => ?_⟩
    rcases hv.carried_or_mem he with hsame | hmem
    · rw [hsame] at hf
      exact hall e he hgoal hb f hf
    · exact absurd (hgoal ▸ hmem) hwait

/-- A visit settles its node, and queues the nodes that it unsettles. -/
theorem Inv.visited (hl : Laws g a ok rank) (hg : g.Closed) (hs : Inv g a ok s)
    (hqueue : s.queue = n :: queue) (hx : s.gathered.get? n = some x)
    (hv : Visited g a { s with queue } n x t) : Inv g a ok t := by
  have hgather : gather g a { s with queue } n x = gather g a s n x := rfl
  obtain ⟨hok, hle, hedge⟩ :=
    gather_spec hl hs.ok_carried (hs.ok_gathered n x hx)
  refine ⟨fun k hk => ?_, fun k y hy => ?_, fun k y hy => ?_, fun k y hy => ?_, fun k hk => ?_,
    fun k hk => ?_⟩
  · obtain ⟨x', y', hx', hy'⟩ := hs.defined k hk
    rw [hv.gathered, hv.carried]
    by_cases hnk : n = k
    · exact ⟨_, _, if_pos hnk, if_pos hnk⟩
    · exact ⟨x', y', (if_neg hnk).trans hx', (if_neg hnk).trans hy'⟩
  · rw [hv.gathered] at hy
    split at hy
    · cases hy
      exact hok
    · exact hs.ok_gathered k y hy
  · rw [hv.carried] at hy
    split at hy
    · cases hy
      exact hl.ok_transfer n _ hok
    · exact hs.ok_carried k y hy
  · rw [hv.gathered] at hy
    split at hy
    · next hnk =>
      cases hy
      subst hnk
      exact hl.le_trans (hs.start_le n x hx) hle
    · exact hs.start_le k y hy
  · have hrest : ∀ k ∈ queue, k ∈ g.nodes := fun k hk =>
      hs.queue k (hqueue ▸ List.mem_cons_of_mem n hk)
    rcases hv.queue with ⟨_, hq⟩ | ⟨_, hq⟩
    · rw [hq] at hk
      exact hrest k hk
    · rw [hq] at hk
      rcases mem_foldl_push.mp hk with hk | hk
      · exact hrest k hk
      · obtain ⟨e, he, _, rfl⟩ := mem_behind.mp hk
        exact goal_mem hg he
  · by_cases hnk : n = k
    · subst hnk
      exact hv.settled hedge
    · have hold := hs.settled k hk
      rw [hqueue] at hold
      rcases hold with hmem | hset
      · rcases List.mem_cons.mp hmem with heq | hmem
        · exact absurd heq.symm hnk
        · exact .inl (hv.mem_queue hmem)
      · exact hv.settled_of_ne hnk hset

/-! ### Termination -/

theorem total_add_length_filter_le {α : Type} {f h : α → Nat} {p : α → Bool} {xs : List α}
    (hle : ∀ x ∈ xs, f x + (if p x then 1 else 0) ≤ h x) :
    total (xs.map f) + (xs.filter p).length ≤ total (xs.map h) := by
  induction xs with
  | nil => exact Nat.le_refl _
  | cons x xs ih =>
    have hrest := ih fun y hy => hle y (List.mem_cons_of_mem x hy)
    have hx := hle x List.mem_cons_self
    rw [List.map_cons, List.map_cons, total_cons, total_cons, List.filter_cons]
    split at hx
    · next hp =>
      rw [if_pos hp, List.length_cons]
      omega
    · next hp =>
      rw [if_neg hp]
      omega

section Credit

variable [DecidableEq φ]

/-- How often the carried fact of a node can still change: once if it does not yet follow from the
gathered fact, and whenever that rises. -/
def credit (a : Analysis ν ε φ) (rank : φ → Nat) (s : State ν φ) (n : ν) : Nat :=
  match s.gathered.get? n, s.carried.get? n with
  | some x, some y => (if y = a.transfer n x then 0 else 1) + (a.height - rank x)
  | _, _ => 0

/-- The nodes that wait and those that may still be queued. -/
def potential (g : Graph ν ε) (a : Analysis ν ε φ) (rank : φ → Nat) (s : State ν φ) : Nat :=
  s.queue.length + total (g.edges.map fun e => credit a rank s (origin a e))

theorem credit_eq (hx : s.gathered.get? n = some x) (hy : s.carried.get? n = some y) :
    credit a rank s n = (if y = a.transfer n x then 0 else 1) + (a.height - rank x) := by
  unfold credit
  rw [hx, hy]

theorem Visited.credit_of_ne (hv : Visited g a s n x t) (hnk : n ≠ k) :
    credit a rank t k = credit a rank s k := by
  unfold credit
  rw [hv.gathered, hv.carried, if_neg hnk, if_neg hnk]

/-- A visit uses up credit of its node if the carried fact changes. -/
theorem Visited.credit_le (hl : Laws g a ok rank) (hv : Visited g a s n x t)
    (hx : s.gathered.get? n = some x) (hy : s.carried.get? n = some y) (hok : ok x)
    (hcarried : ∀ m f, s.carried.get? m = some f → ok f) :
    credit a rank t n + (if y = a.transfer n (gather g a s n x) then 0 else 1) ≤
      credit a rank s n := by
  obtain ⟨hok', hle, -⟩ := gather_spec (n := n) hl hcarried hok
  have hnew : credit a rank t n = a.height - rank (gather g a s n x) := by
    rw [credit_eq ((hv.gathered n).trans (if_pos rfl)) ((hv.carried n).trans (if_pos rfl))]
    exact (congrArg (· + _) (if_pos rfl)).trans (Nat.zero_add _)
  have hold : credit a rank s n = (if y = a.transfer n x then 0 else 1) + (a.height - rank x) :=
    credit_eq hx hy
  rw [hnew, hold]
  by_cases heq : x = gather g a s n x
  · rw [← heq]
    omega
  · have hlt := hl.rank_lt _ _ hok hok' hle heq
    have hheight := hl.rank_le _ hok'
    split <;> omega

/-- What a visit adds to the queue it takes from the credit of the node. -/
theorem potential_visited_lt (hl : Laws g a ok rank) (hs : Inv g a ok s)
    (hqueue : s.queue = n :: queue) (hx : s.gathered.get? n = some x)
    (hv : Visited g a { s with queue } n x t) :
    potential g a rank t < potential g a rank s := by
  obtain ⟨_, y, _, hy⟩ := hs.defined n (hs.queue n (hqueue ▸ List.mem_cons_self))
  have hcredit := hv.credit_le hl hx hy (hs.ok_gathered n x hx) hs.ok_carried
  unfold potential
  rw [hqueue, List.length_cons]
  rcases hv.queue with ⟨_, hq⟩ | ⟨hchanged, hq⟩
  · have hsum : total (g.edges.map fun e => credit a rank t (origin a e)) ≤
        total (g.edges.map fun e => credit a rank s (origin a e)) := by
      refine List.sum_le_sum fun e _ => ?_
      by_cases hn : n = origin a e
      · exact hn ▸ Nat.le_trans (Nat.le_add_right _ _) hcredit
      · exact Nat.le_of_eq (hv.credit_of_ne hn)
    rw [hq]
    dsimp only
    omega
  · have hle : ∀ e ∈ g.edges, credit a rank t (origin a e) +
        (if decide (origin a e = n) = true then 1 else 0) ≤ credit a rank s (origin a e) := by
      intro e _
      by_cases hn : n = origin a e
      · have hne : y ≠ a.transfer n (gather g a { s with queue } n x) := fun h =>
          hchanged (hy.trans (congrArg some h))
        rw [if_neg hne] at hcredit
        rw [← hn, if_pos (decide_eq_true rfl)]
        exact hcredit
      · rw [if_neg (mt of_decide_eq_true (Ne.symm hn))]
        exact Nat.le_of_eq (hv.credit_of_ne hn)
    have hsum := total_add_length_filter_le hle
    have hpush := length_foldl_push_le (behind g a n) queue
    rw [behind_eq, List.length_map] at hpush
    rw [hq, behind_eq]
    dsimp only
    omega

end Credit

/-! ### The solution -/

theorem inv_start (hl : Laws g a ok rank) : Inv g a ok (start g a) := by
  have hok : ∀ n, ok (startFact g a n) := fun n => by
    unfold startFact
    split
    · exact hl.ok_boundary n
    · exact hl.ok_initial
  refine ⟨fun n hn => ?_, fun n x hx => ?_, fun n x hx => ?_, fun n x hx => ?_, fun n hn => ?_,
    fun n hn => ?_⟩
  · have h := (get?_startFacts (g := g) (a := a) n).trans (if_pos hn)
    exact ⟨_, _, h, h⟩
  · rw [(of_get?_startFacts hx).2]
    exact hok n
  · rw [(of_get?_startFacts hx).2]
    exact hok n
  · rw [(of_get?_startFacts hx).2]
    exact hl.le_refl _
  · exact (mem_startQueue.mp hn).1
  · by_cases hb : n ∈ boundaryNodes g a
    · refine .inr fun x hx => ?_
      obtain ⟨hn, rfl⟩ := of_get?_startFacts hx
      refine ⟨by rw [hl.transfer_boundary n hb]; exact hx, fun e _ hgoal hheeded f hf => ?_⟩
      obtain ⟨_, rfl⟩ := of_get?_startFacts hf
      subst hgoal
      exact hheeded.resolve_left fun h => h hb
    · exact .inl (mem_startQueue.mpr ⟨hn, hb⟩)

/-- What a settled solution says of each node. -/
structure Fixed (g : Graph ν ε) (a : Analysis ν ε φ) (ok : φ → Prop) (gathered carried : Table ν φ) :
    Prop where
  defined : ∀ n ∈ g.nodes, ∃ x, gathered.get? n = some x ∧ ok x ∧ a.Le (startFact g a n) x ∧
    carried.get? n = some (a.transfer n x)
  fed : ∀ e ∈ g.edges, Heeded g a e → ∀ f x, carried.get? (origin a e) = some f →
    gathered.get? (goal a e) = some x → a.Le (a.carry e f) x

variable [DecidableEq φ]

theorem visited_visit (hx : s.gathered.get? n = some x)
    (hy : s.carried.get? n = some y) : Visited g a s n x (visit g a s n) := by
  have hgather : gather g a { s with iterations := s.iterations + 1 } n x = gather g a s n x := rfl
  unfold visit
  simp only [hx, hy, hgather]
  split
  · next heq =>
    refine ⟨fun k => Table.get?_insert _ _ _ _, fun k => ?_, .inl ⟨by rw [hy, heq], rfl⟩⟩
    by_cases hk : n = k
    · subst hk
      rw [if_pos rfl, heq]
      exact hy
    · rw [if_neg hk]
  · next hne =>
    refine ⟨fun k => Table.get?_insert _ _ _ _, fun k => Table.get?_insert _ _ _ _, .inr ⟨?_, rfl⟩⟩
    rw [hy]
    exact fun h => hne (Option.some.inj h).symm

theorem run_settled (hl : Laws g a ok rank) (hg : g.Closed) (fuel : Nat) (hs : Inv g a ok s)
    (hfuel : potential g a rank s ≤ fuel) :
    Inv g a ok (run g a fuel s) ∧ (run g a fuel s).queue = [] := by
  induction fuel generalizing s with
  | zero =>
    refine ⟨hs, List.length_eq_zero_iff.mp ?_⟩
    unfold potential at hfuel
    show s.queue.length = 0
    omega
  | succ fuel ih =>
    unfold run
    split
    · next hnil => exact ⟨hs, hnil⟩
    · next n queue hcons =>
      obtain ⟨x, y, hx, hy⟩ := hs.defined n (hs.queue n (hcons ▸ List.mem_cons_self))
      have hv : Visited g a { s with queue } n x (visit g a { s with queue } n) :=
        visited_visit hx hy
      have hlt := potential_visited_lt hl hs hcons hx hv
      exact ih (hs.visited hl hg hcons hx hv) (by omega)

theorem potential_start_le (rank : φ → Nat) :
    potential g a rank (start g a) ≤ visitBound g a := by
  have hcredit : ∀ e ∈ g.edges, credit a rank (start g a) (origin a e) ≤ a.height + 1 := by
    intro e _
    unfold credit
    split
    · split <;> omega
    · omega
  have hsum := total_le_length_mul hcredit
  have hqueue := length_startQueue_le (g := g) (a := a)
  have hqueue' : (start g a).queue.length ≤ g.nodes.length := hqueue
  have hmul : g.edges.length * (a.height + 1) ≤ g.edges.length * (a.height + 2) :=
    Nat.mul_le_mul_left _ (by omega)
  unfold potential visitBound
  omega

/-- Every node is settled in the solution. -/
theorem solve_fixed (hl : Laws g a ok rank) (hg : g.Closed) :
    if a.forward then Fixed g a ok (solve g a).ins (solve g a).outs
    else Fixed g a ok (solve g a).outs (solve g a).ins := by
  obtain ⟨hinv, hnil⟩ := run_settled hl hg _ (inv_start hl) (potential_start_le rank)
  have hfixed : Fixed g a ok (run g a (visitBound g a) (start g a)).gathered
      (run g a (visitBound g a) (start g a)).carried := by
    refine ⟨fun n hn => ?_, fun e he hb f x hf hx => ?_⟩
    · obtain ⟨x, _, hx, _⟩ := hinv.defined n hn
      exact ⟨x, hx, hinv.ok_gathered n x hx, hinv.start_le n x hx,
        (hinv.settled_of_nil hnil hn x hx).1⟩
    · exact (hinv.settled_of_nil hnil (goal_mem hg he) x hx).2 e he rfl hb f hf
  unfold solve State.solution
  cases a.forward <;> simpa using hfixed

end ProgramAnalysis.Dataflow
