import ProgramAnalysis.HandleMap
import ProgramAnalysis.HandleSet

/-! Sets and maps of handles are extensional: a set is its members, a map is what it gives for each
key. Their lists ascend strictly, and two such lists with the same elements are equal. -/
namespace ProgramAnalysis
open Handle (index)

variable {α β : Type} [Handle α]

theorem eq_of_ascending {γ : Type} {key : γ → Nat} {xs ys : List γ}
    (hx : xs.Pairwise fun a b => key a < key b) (hy : ys.Pairwise fun a b => key a < key b)
    (h : ∀ a, a ∈ xs ↔ a ∈ ys) : xs = ys := by
  have hnodup : ∀ {zs : List γ}, zs.Pairwise (fun a b => key a < key b) → zs.Nodup := by
    intro zs hz
    refine hz.imp fun hlt heq => ?_
    rw [heq] at hlt
    exact Nat.lt_irrefl _ hlt
  have hperm : xs.Perm ys := (List.perm_ext_iff_of_nodup (hnodup hx) (hnodup hy)).mpr h
  exact hperm.eq_of_pairwise (fun a b _ _ hab hba => absurd hab (Nat.lt_asymm hba)) hx hy

theorem HandleSet.ext {s t : HandleSet α} (h : ∀ a, a ∈ s ↔ a ∈ t) : s = t := by
  obtain ⟨xs, hx⟩ := s
  obtain ⟨ys, hy⟩ := t
  have heq : xs = ys := eq_of_ascending hx hy h
  subst heq
  rfl

@[simp] theorem HandleSet.mem_erase {s : HandleSet α} {a b : α} : a ∈ s.erase b ↔ a ∈ s ∧ a ≠ b := by
  have hindex : index a ≠ index b ↔ a ≠ b :=
    ⟨fun h he => h (congrArg index he), fun h he => h (Handle.index_injective he)⟩
  simp [HandleSet.erase, hindex]

namespace HandleMap

variable {m m' : HandleMap α β} {k : α} {b : β}

theorem mem_entries_iff : (k, b) ∈ m.entries ↔ m.get? k = some b := by
  obtain ⟨xs, hx⟩ := m
  show (k, b) ∈ xs ↔ lookupKey k xs = some b
  induction xs with
  | nil => simp [lookupKey]
  | cons x rest ih =>
    obtain ⟨j, c⟩ := x
    obtain ⟨hfirst, hrest⟩ := List.pairwise_cons.mp hx
    by_cases hj : index j = index k
    · have hjk : j = k := Handle.index_injective hj
      have hnot : (k, b) ∉ rest := fun hmem => by
        have hlt : index j < index k := hfirst _ hmem
        omega
      simp [lookupKey, hjk, hnot, eq_comm]
    · have hjk : k ≠ j := fun h => hj (h ▸ rfl)
      simp [lookupKey, hj, hjk, ih hrest]

theorem ext (h : ∀ k, m.get? k = m'.get? k) : m = m' := by
  have hmem : ∀ e, e ∈ m.entries ↔ e ∈ m'.entries := by
    intro e
    obtain ⟨k, b⟩ := e
    rw [mem_entries_iff, mem_entries_iff, h]
  obtain ⟨xs, hx⟩ := m
  obtain ⟨ys, hy⟩ := m'
  have heq : xs = ys := eq_of_ascending hx hy hmem
  subst heq
  rfl

end HandleMap
end ProgramAnalysis
