import ProgramAnalysis.HandleSet
/-!
Finite maps from handles, kept as association lists with strictly ascending keys: two maps are
equal exactly when they agree on every key.
-/
namespace ProgramAnalysis
open Handle (index)

variable {α β : Type} [Handle α]

def AscendingKeys (xs : List (α × β)) : Prop := xs.Pairwise fun a b => index a.1 < index b.1

def lookupKey (k : α) : List (α × β) → Option β
  | [] => none
  | (k', b) :: rest => if index k' = index k then some b else lookupKey k rest

def putKey (k : α) (b : β) : List (α × β) → List (α × β)
  | [] => [(k, b)]
  | (k', b') :: rest =>
    if index k < index k' then (k, b) :: (k', b') :: rest
    else if index k = index k' then (k, b) :: rest
    else (k', b') :: putKey k b rest

theorem fst_mem_of_mem_putKey {k : α} {b : β} {x : α × β} {xs : List (α × β)}
    (h : x ∈ putKey k b xs) : x = (k, b) ∨ x ∈ xs := by
  induction xs with
  | nil => simpa [putKey] using h
  | cons y rest ih =>
    obtain ⟨k', b'⟩ := y
    simp only [putKey] at h
    split at h
    · simpa using h
    · split at h <;> grind

theorem AscendingKeys.put {k : α} {b : β} {xs : List (α × β)} (h : AscendingKeys xs) :
    AscendingKeys (putKey k b xs) := by
  induction xs with
  | nil => simp [putKey, AscendingKeys]
  | cons y rest ih =>
    obtain ⟨k', b'⟩ := y
    obtain ⟨hy, hr⟩ := List.pairwise_cons.mp h
    simp only [putKey]
    split
    · next hlt =>
      refine List.pairwise_cons.mpr ⟨fun c hc => ?_, h⟩
      rcases List.mem_cons.mp hc with rfl | hc
      · exact hlt
      · exact Nat.lt_trans hlt (hy c hc)
    · split
      · next heq =>
        refine List.pairwise_cons.mpr ⟨fun c hc => ?_, hr⟩
        have := hy c hc
        simp only at this ⊢
        omega
      · refine List.pairwise_cons.mpr ⟨fun c hc => ?_, ih hr⟩
        rcases fst_mem_of_mem_putKey hc with rfl | hc
        · simp only; omega
        · exact hy c hc

structure HandleMap (α β : Type) [Handle α] where
  entries : List (α × β)
  ascending : AscendingKeys entries

namespace HandleMap

instance [DecidableEq α] [DecidableEq β] : DecidableEq (HandleMap α β) := fun s t =>
  if h : s.entries = t.entries then
    isTrue (by cases s; cases t; simp_all)
  else isFalse (by intro e; exact h (e ▸ rfl))

def empty : HandleMap α β := ⟨[], List.Pairwise.nil⟩

instance : EmptyCollection (HandleMap α β) := ⟨empty⟩
instance : Inhabited (HandleMap α β) := ⟨empty⟩

def get? (m : HandleMap α β) (k : α) : Option β := lookupKey k m.entries

def insert (m : HandleMap α β) (k : α) (b : β) : HandleMap α β :=
  ⟨putKey k b m.entries, m.ascending.put⟩

def erase (m : HandleMap α β) (k : α) : HandleMap α β :=
  ⟨m.entries.filter fun e => index e.1 != index k, List.Pairwise.filter _ m.ascending⟩

def toList (m : HandleMap α β) : List (α × β) := m.entries

def size (m : HandleMap α β) : Nat := m.entries.length

def isEmpty (m : HandleMap α β) : Bool := m.entries.isEmpty

theorem lookupKey_putKey {k j : α} {b : β} {xs : List (α × β)} :
    lookupKey j (putKey k b xs) = if index k = index j then some b else lookupKey j xs := by
  induction xs with
  | nil => simp [putKey, lookupKey]
  | cons y rest ih =>
    obtain ⟨k', b'⟩ := y
    simp only [putKey]
    split
    · simp [lookupKey]
    · split
      · next _ h => simp only [lookupKey, ← h]; split <;> rfl
      · next _ h => simp only [lookupKey, ih]; grind

@[simp] theorem get?_empty (k : α) : (empty : HandleMap α β).get? k = none := rfl

theorem get?_insert (m : HandleMap α β) (k j : α) (b : β) :
    (m.insert k b).get? j = if index k = index j then some b else m.get? j := lookupKey_putKey

@[simp] theorem get?_insert_self (m : HandleMap α β) (k : α) (b : β) :
    (m.insert k b).get? k = some b := by simp [get?_insert]

theorem get?_erase (m : HandleMap α β) (k j : α) :
    (m.erase k).get? j = if index k = index j then none else m.get? j := by
  simp only [get?, erase]
  induction m.entries with
  | nil => simp [lookupKey]
  | cons y rest ih =>
    obtain ⟨k', b'⟩ := y
    by_cases h : index k' = index k <;> simp [lookupKey, h, ih] <;> grind

end HandleMap
end ProgramAnalysis
