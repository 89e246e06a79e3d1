import ProgramAnalysis.Handle
/-!
Finite sets of handles, kept as strictly ascending lists: two sets are equal exactly when they
have the same members.
-/
namespace ProgramAnalysis
open Handle (index)

variable {α : Type} [Handle α]

/-- Strictly ascending by index. -/
def Ascending (xs : List α) : Prop := xs.Pairwise fun a b => index a < index b

def insertAscending (a : α) : List α → List α
  | [] => [a]
  | b :: rest =>
    if index a < index b then a :: b :: rest
    else if index a = index b then b :: rest
    else b :: insertAscending a rest

theorem mem_insertAscending {a x : α} {xs : List α} :
    x ∈ insertAscending a xs ↔ x = a ∨ x ∈ xs := by
  induction xs with
  | nil => simp [insertAscending]
  | cons b rest ih =>
    simp only [insertAscending]
    split
    · simp
    · split
      · next h => simp [Handle.index_injective h]
      · simp only [List.mem_cons, ih]; grind

theorem Ascending.insert {a : α} {xs : List α} (h : Ascending xs) :
    Ascending (insertAscending a xs) := by
  induction xs with
  | nil => simp [insertAscending, Ascending]
  | cons b rest ih =>
    obtain ⟨hb, hr⟩ := List.pairwise_cons.mp h
    simp only [insertAscending]
    split
    · next hlt =>
      refine List.pairwise_cons.mpr ⟨fun c hc => ?_, h⟩
      rcases List.mem_cons.mp hc with rfl | hc
      · exact hlt
      · exact Nat.lt_trans hlt (hb c hc)
    · split
      · exact h
      · refine List.pairwise_cons.mpr ⟨fun c hc => ?_, ih hr⟩
        rcases mem_insertAscending.mp hc with rfl | hc
        · omega
        · exact hb c hc

structure HandleSet (α : Type) [Handle α] where
  elems : List α
  ascending : Ascending elems

namespace HandleSet

instance [DecidableEq α] : DecidableEq (HandleSet α) := fun s t =>
  if h : s.elems = t.elems then
    isTrue (by cases s; cases t; simp_all)
  else isFalse (by intro e; exact h (e ▸ rfl))

instance : Membership α (HandleSet α) := ⟨fun s a => a ∈ s.elems⟩

def empty : HandleSet α := ⟨[], List.Pairwise.nil⟩

instance : EmptyCollection (HandleSet α) := ⟨empty⟩
instance : Inhabited (HandleSet α) := ⟨empty⟩

def singleton (a : α) : HandleSet α := ⟨[a], List.pairwise_singleton _ _⟩

def toList (s : HandleSet α) : List α := s.elems

def size (s : HandleSet α) : Nat := s.elems.length

def isEmpty (s : HandleSet α) : Bool := s.elems.isEmpty

def contains (s : HandleSet α) (a : α) : Bool := s.elems.any fun b => index b == index a

def insert (s : HandleSet α) (a : α) : HandleSet α :=
  ⟨insertAscending a s.elems, s.ascending.insert⟩

def filter (s : HandleSet α) (p : α → Bool) : HandleSet α :=
  ⟨s.elems.filter p, List.Pairwise.filter p s.ascending⟩

def erase (s : HandleSet α) (a : α) : HandleSet α := s.filter fun b => index b != index a

def ofList (xs : List α) : HandleSet α := xs.foldl insert empty

def union (s t : HandleSet α) : HandleSet α := t.elems.foldl insert s

def diff (s t : HandleSet α) : HandleSet α := s.filter fun a => !t.contains a

def inter (s t : HandleSet α) : HandleSet α := s.filter t.contains

def symmDiff (s t : HandleSet α) : HandleSet α := (s.diff t).union (t.diff s)

def subset (s t : HandleSet α) : Bool := s.elems.all t.contains

def intersects (s t : HandleSet α) : Bool := s.elems.any t.contains

theorem mem_elems {s : HandleSet α} {a : α} : a ∈ s.elems ↔ a ∈ s := Iff.rfl

@[simp] theorem not_mem_empty (a : α) : ¬ a ∈ (empty : HandleSet α) := List.not_mem_nil

@[simp] theorem mem_singleton {a b : α} : a ∈ singleton b ↔ a = b := List.mem_singleton

@[simp] theorem contains_iff {s : HandleSet α} {a : α} : s.contains a = true ↔ a ∈ s := by
  simp only [contains, List.any_eq_true, beq_iff_eq]
  constructor
  · intro hr
    obtain ⟨b, hb, h⟩ := hr
    exact Handle.index_injective h ▸ hb
  · exact fun h => ⟨a, h, rfl⟩

@[simp] theorem mem_insert {s : HandleSet α} {a b : α} : a ∈ s.insert b ↔ a = b ∨ a ∈ s :=
  mem_insertAscending

@[simp] theorem mem_filter {s : HandleSet α} {p : α → Bool} {a : α} :
    a ∈ s.filter p ↔ a ∈ s ∧ p a = true := List.mem_filter

theorem mem_foldl_insert {xs : List α} {s : HandleSet α} {a : α} :
    a ∈ xs.foldl insert s ↔ a ∈ s ∨ a ∈ xs := by
  induction xs generalizing s with
  | nil => simp
  | cons b rest ih => simp only [List.foldl_cons, ih, mem_insert, List.mem_cons]; grind

@[simp] theorem mem_ofList {xs : List α} {a : α} : a ∈ ofList xs ↔ a ∈ xs := by
  simp [ofList, mem_foldl_insert]

@[simp] theorem mem_union {s t : HandleSet α} {a : α} : a ∈ s.union t ↔ a ∈ s ∨ a ∈ t :=
  mem_foldl_insert

@[simp] theorem mem_diff {s t : HandleSet α} {a : α} : a ∈ s.diff t ↔ a ∈ s ∧ ¬ a ∈ t := by
  rw [diff, mem_filter, ← contains_iff (s := t)]
  cases t.contains a <;> simp

@[simp] theorem mem_inter {s t : HandleSet α} {a : α} : a ∈ s.inter t ↔ a ∈ s ∧ a ∈ t := by
  simp [inter]

theorem subset_iff {s t : HandleSet α} : s.subset t = true ↔ ∀ a ∈ s, a ∈ t := by
  simp only [subset, List.all_eq_true, contains_iff]; rfl

theorem intersects_iff {s t : HandleSet α} : s.intersects t = true ↔ ∃ a ∈ s, a ∈ t := by
  simp only [intersects, List.any_eq_true, contains_iff]; rfl

end HandleSet
end ProgramAnalysis
