import ProgramAnalysis.Dataflow.Solver

/-! Data-flow problems that the work list solver solves: facts are a semilattice of finite height.
The transfer need not be monotone. What gathers at a node lies above all that its edges bring. -/
namespace ProgramAnalysis

variable {ν ε φ : Type}

/-- `x` adds nothing to `y`. -/
def Analysis.Le (a : Analysis ν ε φ) (x y : φ) : Prop := a.meet x y = y

/-- Edges join nodes of the graph. -/
def Graph.Closed (g : Graph ν ε) : Prop := ∀ e ∈ g.edges, e.source ∈ g.nodes ∧ e.target ∈ g.nodes

namespace Dataflow

/-- The node that an edge takes facts from. -/
def origin (a : Analysis ν ε φ) (e : Edge ν ε) : ν := if a.forward then e.source else e.target

/-- The node that an edge takes facts to. -/
def goal (a : Analysis ν ε φ) (e : Edge ν ε) : ν := if a.forward then e.target else e.source

variable {g : Graph ν ε} {a : Analysis ν ε φ} {ok : φ → Prop} {rank : φ → Nat}

/-- What a problem must satisfy to be solved: facts are a semilattice of finite height with
`initial` at the bottom, as far as they are `ok`. -/
structure Laws (g : Graph ν ε) (a : Analysis ν ε φ) (ok : φ → Prop) (rank : φ → Nat) : Prop where
  meet_self : ∀ x, a.meet x x = x
  meet_comm : ∀ x y, a.meet x y = a.meet y x
  meet_assoc : ∀ x y z, a.meet (a.meet x y) z = a.meet x (a.meet y z)
  initial_meet : ∀ x, a.meet a.initial x = x
  transfer_boundary : ∀ n ∈ boundaryNodes g a, ∀ x, a.transfer n x = x
  ok_initial : ok a.initial
  ok_boundary : ∀ n, ok (a.boundary n)
  ok_meet : ∀ x y, ok x → ok y → ok (a.meet x y)
  ok_transfer : ∀ n x, ok x → ok (a.transfer n x)
  ok_carry : ∀ e x, ok x → ok (a.carry e x)
  rank_lt : ∀ x y, ok x → ok y → a.Le x y → x ≠ y → rank x < rank y
  rank_le : ∀ x, ok x → rank x ≤ a.height

namespace Laws

variable {x y z : φ}

theorem le_refl (hl : Laws g a ok rank) (x : φ) : a.Le x x := hl.meet_self x

theorem le_trans (hl : Laws g a ok rank) (hxy : a.Le x y) (hyz : a.Le y z) : a.Le x z := by
  unfold Analysis.Le at *
  rw [← hyz, ← hl.meet_assoc, hxy]

theorem left_le_meet (hl : Laws g a ok rank) (x y : φ) : a.Le x (a.meet x y) := by
  unfold Analysis.Le
  rw [← hl.meet_assoc, hl.meet_self]

theorem right_le_meet (hl : Laws g a ok rank) (x y : φ) : a.Le y (a.meet x y) := by
  rw [hl.meet_comm]
  exact hl.left_le_meet y x

end Laws

/-! ### Edges -/

theorem goal_mem (hg : g.Closed) {e : Edge ν ε} (he : e ∈ g.edges) : goal a e ∈ g.nodes := by
  unfold goal
  split
  · exact (hg e he).2
  · exact (hg e he).1

theorem origin_mem (hg : g.Closed) {e : Edge ν ε} (he : e ∈ g.edges) : origin a e ∈ g.nodes := by
  unfold origin
  split
  · exact (hg e he).1
  · exact (hg e he).2

section Queue

variable [DecidableEq ν]

/-- Nodes are visited at first, unless they are boundary nodes: what an edge brings to these at the
start has to be there already. -/
def Heeded (g : Graph ν ε) (a : Analysis ν ε φ) (e : Edge ν ε) : Prop :=
  goal a e ∉ boundaryNodes g a ∨
    a.Le (a.carry e (startFact g a (origin a e))) (startFact g a (goal a e))

theorem feeding_eq (n : ν) :
    feeding g a n = (g.edges.filter fun e => goal a e = n).map fun e => (e, origin a e) := by
  have horigin : origin a = fun e => if a.forward then e.source else e.target := rfl
  unfold feeding goal Graph.edgesInto Graph.edgesFrom
  rw [horigin]
  cases a.forward <;> simp

theorem mem_feeding {n m : ν} {e : Edge ν ε} :
    (e, m) ∈ feeding g a n ↔ e ∈ g.edges ∧ goal a e = n ∧ m = origin a e := by
  rw [feeding_eq, List.mem_map]
  constructor
  · intro h
    obtain ⟨e', he', heq⟩ := h
    cases heq
    obtain ⟨he, hgoal⟩ := List.mem_filter.mp he'
    exact ⟨he, of_decide_eq_true hgoal, rfl⟩
  · intro h
    obtain ⟨he, hgoal, rfl⟩ := h
    exact ⟨e, List.mem_filter.mpr ⟨he, decide_eq_true hgoal⟩, rfl⟩

theorem behind_eq (n : ν) :
    behind g a n = (g.edges.filter fun e => origin a e = n).map (goal a) := by
  have hgoal : goal a = fun e => if a.forward then e.target else e.source := rfl
  unfold behind origin Graph.succs Graph.preds Graph.edgesInto Graph.edgesFrom
  rw [hgoal]
  cases a.forward <;> simp

theorem mem_behind {n k : ν} : k ∈ behind g a n ↔ ∃ e ∈ g.edges, origin a e = n ∧ goal a e = k := by
  rw [behind_eq]
  simp [and_assoc]

/-! ### The queue -/

theorem mem_push {queue : List ν} {n k : ν} : k ∈ push queue n ↔ k ∈ queue ∨ k = n := by
  unfold push
  split
  · next h => exact ⟨.inl, fun hk => hk.elim id fun hk => hk ▸ h⟩
  · simp

theorem length_push_le (queue : List ν) (n : ν) : (push queue n).length ≤ queue.length + 1 := by
  unfold push
  split
  · exact Nat.le_succ _
  · simp

theorem mem_foldl_push {ns queue : List ν} {k : ν} :
    k ∈ ns.foldl push queue ↔ k ∈ queue ∨ k ∈ ns := by
  induction ns generalizing queue with
  | nil => simp
  | cons n ns ih => rw [List.foldl_cons, ih, mem_push, List.mem_cons, or_assoc]

theorem length_foldl_push_le (ns queue : List ν) :
    (ns.foldl push queue).length ≤ queue.length + ns.length := by
  induction ns generalizing queue with
  | nil => exact Nat.le_refl _
  | cons n ns ih =>
    have hrest := ih (push queue n)
    have hone := length_push_le queue n
    rw [List.foldl_cons, List.length_cons]
    omega

/-! ### The start -/

theorem get?_foldl_insert {f : ν → φ} {ns : List ν} {t : Table ν φ} {n : ν} :
    (ns.foldl (fun t n => t.insert n (f n)) t).get? n = if n ∈ ns then some (f n) else t.get? n := by
  induction ns generalizing t with
  | nil => simp
  | cons m ns ih =>
    rw [List.foldl_cons, ih, Table.get?_insert]
    by_cases hm : m = n
    · simp [hm]
    · simp [hm, Ne.symm hm]

theorem get?_startFacts (n : ν) :
    (startFacts g a).get? n = if n ∈ g.nodes then some (startFact g a n) else none :=
  get?_foldl_insert

theorem of_get?_startFacts {n : ν} {x : φ} (h : (startFacts g a).get? n = some x) :
    n ∈ g.nodes ∧ x = startFact g a n := by
  rw [get?_startFacts] at h
  split at h
  · next hn => exact ⟨hn, (Option.some.inj h).symm⟩
  · cases h

theorem mem_startQueue {n : ν} :
    n ∈ startQueue g a ↔ n ∈ g.nodes ∧ n ∉ boundaryNodes g a := by
  unfold startQueue
  rw [mem_foldl_push]
  split <;> simp

theorem length_startQueue_le : (startQueue g a).length ≤ g.nodes.length := by
  refine Nat.le_trans (length_foldl_push_le _ _) ?_
  refine Nat.le_trans (Nat.add_le_add_left (List.length_filter_le _ _) _) ?_
  split <;> simp

end Queue

/-! ### Gathering -/

/-- What gathers on `x` when edges bring what their origins carry. -/
def gatherFrom [DecidableEq ν] (a : Analysis ν ε φ) (s : State ν φ) (es : List (Edge ν ε × ν))
    (x : φ) : φ :=
  es.foldl (fun acc e => match s.carried.get? e.2 with
    | some f => a.meet (a.carry e.1 f) acc
    | none => acc) x

section Gather

variable [DecidableEq ν] {s : State ν φ} {n : ν} {x : φ}

theorem gatherFrom_spec (hl : Laws g a ok rank) (hok : ∀ m f, s.carried.get? m = some f → ok f)
    (es : List (Edge ν ε × ν)) (hx : ok x) :
    ok (gatherFrom a s es x) ∧ a.Le x (gatherFrom a s es x) ∧
      ∀ e ∈ es, ∀ f, s.carried.get? e.2 = some f → a.Le (a.carry e.1 f) (gatherFrom a s es x) := by
  induction es generalizing x with
  | nil => exact ⟨hx, hl.le_refl x, nofun⟩
  | cons e es ih =>
    unfold gatherFrom
    rw [List.foldl_cons]
    cases hf : s.carried.get? e.2 with
    | none =>
      obtain ⟨hr, hle, hall⟩ := ih hx
      refine ⟨hr, hle, fun e' he' f hf' => ?_⟩
      rcases List.mem_cons.mp he' with heq | he'
      · rw [heq, hf] at hf'
        cases hf'
      · exact hall e' he' f hf'
    | some f =>
      have hmeet := hl.ok_meet _ _ (hl.ok_carry e.1 f (hok _ _ hf)) hx
      obtain ⟨hr, hle, hall⟩ := ih hmeet
      refine ⟨hr, hl.le_trans (hl.right_le_meet _ _) hle, fun e' he' f' hf' => ?_⟩
      rcases List.mem_cons.mp he' with heq | he'
      · rw [heq, hf] at hf'
        cases hf'
        rw [heq]
        exact hl.le_trans (hl.left_le_meet _ _) hle
      · exact hall e' he' f' hf'

theorem gather_spec (hl : Laws g a ok rank) (hok : ∀ m f, s.carried.get? m = some f → ok f)
    (hx : ok x) : ok (gather g a s n x) ∧ a.Le x (gather g a s n x) ∧
      ∀ e ∈ g.edges, goal a e = n → ∀ f, s.carried.get? (origin a e) = some f →
        a.Le (a.carry e f) (gather g a s n x) := by
  obtain ⟨hr, hle, hall⟩ := gatherFrom_spec hl hok (feeding g a n) hx
  exact ⟨hr, hle, fun e he hgoal f hf => hall (e, origin a e) (mem_feeding.mpr ⟨he, hgoal, rfl⟩) f hf⟩

/-- What gathers has each property that it starts with, that all edges bring, and that the meet
keeps. -/
theorem gather_induction {P : φ → Prop} (hmeet : ∀ x y, P x → P y → P (a.meet x y)) (hx : P x)
    (hedge : ∀ e ∈ g.edges, goal a e = n → ∀ f, s.carried.get? (origin a e) = some f →
      P (a.carry e f)) : P (gather g a s n x) := by
  have hfold : ∀ (es : List (Edge ν ε × ν)) (x : φ), P x →
      (∀ e ∈ es, ∀ f, s.carried.get? e.2 = some f → P (a.carry e.1 f)) →
      P (gatherFrom a s es x) := by
    intro es
    induction es with
    | nil => exact fun x hx _ => hx
    | cons e es ih =>
      intro x hx hes
      have hrest := fun e' he' => hes e' (List.mem_cons_of_mem e he')
      unfold gatherFrom
      rw [List.foldl_cons]
      cases hf : s.carried.get? e.2 with
      | none => exact ih x hx hrest
      | some f => exact ih _ (hmeet _ _ (hes e List.mem_cons_self f hf) hx) hrest
  refine hfold _ x hx fun e he f hf => ?_
  obtain ⟨hmem, hgoal, horigin⟩ := mem_feeding.mp he
  exact hedge e.1 hmem hgoal f (horigin ▸ hf)

end Gather

end Dataflow
end ProgramAnalysis
