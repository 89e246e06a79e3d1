import Mathlib.Algebra.Order.BigOperators.Group.List
import Mathlib.Algebra.Order.Group.Nat
import Mathlib.Data.List.FinRange
import ProgramAnalysis.Count
import ProgramAnalysis.Proofs.Handles

/-! Counting with lists: handles below a bound, totals over part of a list, and the sizes of sets
of handles. -/
namespace ProgramAnalysis
open Handle (index)

/-- As many things as there are values that no two of them share. -/
theorem le_length_of_unshared {α : Type} {n : Nat} {ys : List α} {R : Nat → α → Prop}
    (h : ∀ i < n, ∃ a ∈ ys, R i a) (hinj : ∀ {i j a}, R i a → R j a → i = j) : n ≤ ys.length := by
  have hex : ∀ i : Fin n, ∃ a, a ∈ ys ∧ R i a := fun i => h i i.isLt
  let g : Fin n → α := fun i => Classical.choose (hex i)
  have hg : ∀ i, g i ∈ ys ∧ R i (g i) := fun i => Classical.choose_spec (hex i)
  have hnodup : (List.ofFn g).Nodup := by
    refine List.nodup_ofFn.mpr fun i j hij => ?_
    exact Fin.ext (hinj (hg i).2 (hij ▸ (hg j).2))
  have hsub : List.ofFn g ⊆ ys := by
    intro a ha
    obtain ⟨i, rfl⟩ := List.mem_ofFn.mp ha
    exact (hg i).1
  simpa using List.Nodup.length_le_of_subset hnodup hsub

section Totals

variable {α : Type} {f : α → Nat} {xs ys : List α}

theorem total_append (ms ns : List Nat) : total (ms ++ ns) = total ms + total ns :=
  List.sum_append

theorem total_le_of_subset (hn : xs.Nodup) (h : xs ⊆ ys) :
    total (xs.map f) ≤ total (ys.map f) := by
  obtain ⟨zs, hperm, hsub⟩ := List.subperm_of_subset hn h
  calc total (xs.map f) = (zs.map f).sum := ((hperm.map f).sum_eq).symm
    _ ≤ (ys.map f).sum := (hsub.map f).sum_le_sum fun _ _ => Nat.zero_le _

theorem total_le_length_mul {c : Nat} (h : ∀ x ∈ xs, f x ≤ c) :
    total (xs.map f) ≤ xs.length * c := by
  induction xs with
  | nil => exact Nat.zero_le _
  | cons x xs ih =>
    have hx := h x List.mem_cons_self
    have hxs := ih fun y hy => h y (List.mem_cons_of_mem x hy)
    rw [List.map_cons, total_cons, List.length_cons, Nat.succ_mul]
    omega

theorem total_lt {g : α → Nat} (hle : ∀ x ∈ xs, f x ≤ g x) (hlt : ∃ x ∈ xs, f x < g x) :
    total (xs.map f) < total (xs.map g) :=
  List.sum_lt_sum f g hle hlt

theorem total_map_modify {i : Nat} {x : α} {g : α → α} (hi : xs[i]? = some x) :
    total ((xs.modify i g).map f) + f x = total (xs.map f) + f (g x) := by
  induction xs generalizing i with
  | nil => simp at hi
  | cons y ys ih =>
    cases i with
    | zero =>
      simp only [List.getElem?_cons_zero, Option.some.injEq] at hi
      subst hi
      simp only [List.modify_zero_cons, List.map_cons, total_cons]
      omega
    | succ i =>
      rw [List.getElem?_cons_succ] at hi
      have h := ih hi
      simp only [List.modify_succ_cons, List.map_cons, total_cons]
      omega

/-- What is over once one more element has been seen. -/
theorem total_filter_not_mem_cons [DecidableEq α] {seen : List α} {x : α} (hn : xs.Nodup)
    (hx : x ∈ xs) (hseen : x ∉ seen) :
    total ((xs.filter fun y => y ∉ x :: seen).map f) + f x =
      total ((xs.filter fun y => y ∉ seen).map f) := by
  have hperm : (x :: xs.filter fun y => y ∉ x :: seen).Perm (xs.filter fun y => y ∉ seen) := by
    have hnodup : (x :: xs.filter fun y => y ∉ x :: seen).Nodup :=
      List.nodup_cons.mpr ⟨by simp, hn.filter _⟩
    refine (List.perm_ext_iff_of_nodup hnodup (hn.filter _)).mpr fun y => ?_
    by_cases hy : y = x
    · simp [hy, hx, hseen]
    · simp [hy]
  have hsum : f x + total ((xs.filter fun y => y ∉ x :: seen).map f) =
      total ((xs.filter fun y => y ∉ seen).map f) := (hperm.map f).sum_eq
  omega

end Totals

section Handles

variable {α : Type} [Handle α] {xs : List α} {s t : HandleSet α} {n : Nat}

theorem length_le_of_index_lt (hn : xs.Nodup) (h : ∀ a ∈ xs, index a < n) : xs.length ≤ n := by
  have hnodup : (xs.map index).Nodup :=
    List.Pairwise.map index (fun _ _ hne he => hne (Handle.index_injective he)) hn
  have hsub : xs.map index ⊆ List.range n := by
    intro i hi
    obtain ⟨a, ha, rfl⟩ := List.mem_map.mp hi
    exact List.mem_range.mpr (h a ha)
  simpa using List.Nodup.length_le_of_subset hnodup hsub

theorem HandleSet.nodup_elems (s : HandleSet α) : s.elems.Nodup :=
  s.ascending.imp fun hlt he => by rw [he] at hlt; exact Nat.lt_irrefl _ hlt

theorem HandleSet.size_le (h : ∀ a ∈ s, index a < n) : s.size ≤ n :=
  length_le_of_index_lt s.nodup_elems h

theorem HandleSet.size_lt (hsub : ∀ a ∈ s, a ∈ t) (hne : s ≠ t) : s.size < t.size := by
  obtain ⟨a, ha, hs⟩ : ∃ a ∈ t, a ∉ s := by
    by_contra hnone
    refine hne (HandleSet.ext fun a => ⟨hsub a, fun ha => ?_⟩)
    by_contra hs
    exact hnone ⟨a, ha, hs⟩
  have hnodup : (a :: s.elems).Nodup := List.nodup_cons.mpr ⟨hs, s.nodup_elems⟩
  have hsubset : a :: s.elems ⊆ t.elems := by
    intro c hc
    rcases List.mem_cons.mp hc with rfl | hc
    · exact ha
    · exact hsub c hc
  exact List.Nodup.length_le_of_subset hnodup hsubset

/-- Sets without a common member have at least the members of both in their union. -/
theorem HandleSet.size_union_ge (h : ∀ a ∈ t, a ∉ s) : s.size + t.size ≤ (s.union t).size := by
  have hnodup : (s.elems ++ t.elems).Nodup := by
    refine List.nodup_append.mpr ⟨s.nodup_elems, t.nodup_elems, fun a ha b hb => ?_⟩
    rintro rfl
    exact h a hb ha
  have hsub : s.elems ++ t.elems ⊆ (s.union t).elems := by
    intro a ha
    exact mem_union.mpr (List.mem_append.mp ha)
  simpa [size] using List.Nodup.length_le_of_subset hnodup hsub

end Handles
end ProgramAnalysis
