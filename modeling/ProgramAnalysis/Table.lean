/-!
Finite maps as association lists in the order of first insertion.
-/
namespace ProgramAnalysis

variable {κ α : Type} [DecidableEq κ]

def upsert (k : κ) (a : α) : List (κ × α) → List (κ × α)
  | [] => [(k, a)]
  | (j, b) :: rest => if j = k then (k, a) :: rest else (j, b) :: upsert k a rest

def find (k : κ) : List (κ × α) → Option α
  | [] => none
  | (j, b) :: rest => if j = k then some b else find k rest

theorem map_fst_upsert (k : κ) (a : α) (xs : List (κ × α)) :
    (upsert k a xs).map (·.1) =
      if k ∈ xs.map (·.1) then xs.map (·.1) else xs.map (·.1) ++ [k] := by
  induction xs with
  | nil => simp [upsert]
  | cons x rest ih =>
    obtain ⟨j, b⟩ := x
    simp only [upsert]
    split
    · next h => simp [h]
    · next h =>
      simp only [List.map_cons, ih, List.mem_cons]
      split <;> simp_all [eq_comm]

theorem nodup_upsert {k : κ} {a : α} {xs : List (κ × α)} (h : (xs.map (·.1)).Nodup) :
    ((upsert k a xs).map (·.1)).Nodup := by
  rw [map_fst_upsert]
  split
  · exact h
  · next hk =>
    refine List.nodup_append.mpr ⟨h, by simp, fun x hx y hy => ?_⟩
    rintro rfl
    exact hk (List.mem_singleton.mp hy ▸ hx)

theorem find_upsert (k j : κ) (a : α) (xs : List (κ × α)) :
    find j (upsert k a xs) = if k = j then some a else find j xs := by
  induction xs with
  | nil => simp [upsert, find]
  | cons x rest ih =>
    obtain ⟨i, b⟩ := x
    simp only [upsert]
    split
    · next h => subst h; simp only [find]; split <;> rfl
    · next h => simp only [find, ih]; grind

theorem find_eq_lookup (k : κ) (xs : List (κ × α)) : find k xs = xs.lookup k := by
  induction xs with
  | nil => rfl
  | cons x rest ih =>
    obtain ⟨j, b⟩ := x
    by_cases h : j = k
    · subst h
      simp [find]
    · have hbeq : (k == j) = false := beq_false_of_ne (Ne.symm h)
      rw [find, if_neg h, List.lookup_cons, hbeq, ih]

theorem upsert_of_notMem {k : κ} {a : α} {xs : List (κ × α)} (h : k ∉ xs.map (·.1)) :
    upsert k a xs = xs ++ [(k, a)] := by
  induction xs with
  | nil => rfl
  | cons x rest ih =>
    obtain ⟨j, b⟩ := x
    rw [List.map_cons, List.mem_cons, not_or] at h
    rw [upsert, if_neg (Ne.symm h.1), ih h.2]
    rfl

structure Table (κ α : Type) where
  entries : List (κ × α)
  nodup : (entries.map (·.1)).Nodup

namespace Table

def empty : Table κ α := ⟨[], List.nodup_nil⟩

instance : Inhabited (Table κ α) := ⟨⟨[], List.nodup_nil⟩⟩

def get? (t : Table κ α) (k : κ) : Option α := find k t.entries

def insert (t : Table κ α) (k : κ) (a : α) : Table κ α :=
  ⟨upsert k a t.entries, nodup_upsert t.nodup⟩

/-- Adds to the end of the list of a key. -/
def push (t : Table κ (List α)) (k : κ) (a : α) : Table κ (List α) :=
  t.insert k ((t.get? k).getD [] ++ [a])

def keys (t : Table κ α) : List κ := t.entries.map (·.1)

def size (t : Table κ α) : Nat := t.entries.length

@[simp] theorem get?_empty (k : κ) : (empty : Table κ α).get? k = none := rfl

theorem get?_insert (t : Table κ α) (k j : κ) (a : α) :
    (t.insert k a).get? j = if k = j then some a else t.get? j := find_upsert k j a t.entries

theorem getD_push (t : Table κ (List α)) (k j : κ) (a : α) :
    ((t.push k a).get? j).getD [] = (t.get? j).getD [] ++ if k = j then [a] else [] := by
  rw [push, get?_insert]
  split
  · next h => subst h; rfl
  · exact (List.append_nil _).symm

end Table
end ProgramAnalysis
