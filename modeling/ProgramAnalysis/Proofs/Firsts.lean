import Mathlib.Data.Finset.Card
import Mathlib.Data.List.Induction

/-! The first elements of each key in a list, in order: what is left of a history when repetitions do
nothing. A key has a rank among them, which later elements do not change. -/
namespace ProgramAnalysis

variable {α κ : Type} [DecidableEq κ]

/-- The first element of each key, in order. -/
def firsts (key : α → κ) (xs : List α) : List α := xs.eraseDupsBy fun x y => key x = key y

variable {key : α → κ} {x : α} {k j : κ}

theorem firsts_cons (xs : List α) :
    firsts key (x :: xs) = x :: firsts key (xs.filter fun y => key y ≠ key x) := by
  unfold firsts
  rw [List.eraseDupsBy_cons]
  simp

theorem firsts_concat (xs : List α) : firsts key (xs ++ [x]) =
    if key x ∈ xs.map key then firsts key xs else firsts key xs ++ [x] := by
  induction hlength : xs.length using Nat.strongRecOn generalizing xs with
  | ind n ih =>
    cases xs with
    | nil => rfl
    | cons y ys =>
      have hlt : (ys.filter fun z => key z ≠ key y).length < n := by
        have hle := List.length_filter_le (fun z => key z ≠ key y) ys
        rw [List.length_cons] at hlength
        omega
      rw [List.cons_append, firsts_cons, firsts_cons, List.filter_append]
      by_cases hxy : key x = key y
      · simp [hxy]
      · have hfilter : [x].filter (fun z => key z ≠ key y) = [x] := by simp [hxy]
        have hmem : key x ∈ (ys.filter fun z => key z ≠ key y).map key ↔
            key x ∈ (y :: ys).map key := by
          simp only [List.mem_map, List.mem_filter, List.map_cons, List.mem_cons]
          grind
        rw [hfilter, ih _ hlt _ rfl]
        simp only [hmem]
        split <;> rfl

theorem mem_map_firsts (xs : List α) : k ∈ (firsts key xs).map key ↔ k ∈ xs.map key := by
  induction xs using List.reverseRecOn with
  | nil => rfl
  | append_singleton xs x ih =>
    rw [firsts_concat]
    split
    · next h =>
      rw [ih, List.map_append, List.mem_append]
      exact ⟨.inl, fun hk => hk.elim id fun hk => List.mem_singleton.mp hk ▸ h⟩
    · rw [List.map_append, List.map_append, List.mem_append, List.mem_append, ih]

theorem nodup_firsts (xs : List α) : ((firsts key xs).map key).Nodup := by
  induction xs using List.reverseRecOn with
  | nil => exact List.nodup_nil
  | append_singleton xs x ih =>
    rw [firsts_concat]
    split
    · exact ih
    · next h =>
      rw [List.map_append]
      refine List.nodup_append.mpr ⟨ih, List.pairwise_singleton _ _, fun k hk j hj => ?_⟩
      rw [List.mem_singleton.mp hj]
      rintro rfl
      exact h ((mem_map_firsts xs).mp hk)

/-- An element is added to the firsts if its key is new. -/
theorem firsts_filterMap_concat {ι : Type} (pick : ι → Option α) (xs : List ι) (x : ι) :
    firsts key ((xs ++ [x]).filterMap pick) =
      match pick x with
      | none => firsts key (xs.filterMap pick)
      | some y =>
        if key y ∈ (firsts key (xs.filterMap pick)).map key then firsts key (xs.filterMap pick)
        else firsts key (xs.filterMap pick) ++ [y] := by
  rw [List.filterMap_append]
  cases h : pick x with
  | none => simp [h]
  | some y =>
    simp only [List.filterMap_cons_some h, List.filterMap_nil, firsts_concat, mem_map_firsts]

theorem length_firsts (xs : List α) : (firsts key xs).length = (xs.map key).toFinset.card := by
  have hkeys : ((firsts key xs).map key).toFinset = (xs.map key).toFinset := by
    ext k
    simp only [List.mem_toFinset, mem_map_firsts]
  rw [← hkeys, List.toFinset_card_of_nodup (nodup_firsts xs), List.length_map]

/-- The place of a key among the first elements. -/
def rank (key : α → κ) (xs : List α) (k : κ) : Nat := ((firsts key xs).map key).idxOf k

variable {xs : List α}

theorem rank_eq {n : Nat} (h : (firsts key xs)[n]? = some x) : rank key xs (key x) = n := by
  obtain ⟨hn, rfl⟩ := List.getElem?_eq_some_iff.mp h
  have hnodup : ((firsts key xs).map key).Nodup := nodup_firsts xs
  have hkey := hnodup.idxOf_getElem n (by rwa [List.length_map])
  rwa [List.getElem_map] at hkey

theorem rank_inj (h : k ∈ xs.map key) : rank key xs k = rank key xs j ↔ k = j :=
  List.idxOf_inj ((mem_map_firsts xs).mpr h)

theorem rank_concat (h : k ∈ xs.map key) : rank key (xs ++ [x]) k = rank key xs k := by
  unfold rank
  rw [firsts_concat]
  split
  · rfl
  · rw [List.map_append, List.idxOf_append_of_mem ((mem_map_firsts xs).mpr h)]

theorem firsts_rank (h : k ∈ xs.map key) :
    ∃ x, (firsts key xs)[rank key xs k]? = some x ∧ key x = k := by
  have hk : ((firsts key xs).map key)[rank key xs k]? = some k :=
    List.getElem?_idxOf ((mem_map_firsts xs).mpr h)
  rw [List.getElem?_map] at hk
  exact Option.map_eq_some_iff.mp hk

end ProgramAnalysis
