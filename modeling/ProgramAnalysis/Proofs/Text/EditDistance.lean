import Mathlib.Order.Bounds.Basic
import ProgramAnalysis.Config.Error

/-! The table of distances, computed row by row, against scripts of edits: its last cell is the
length of the shortest script. A row belongs to what was read of the first word, a cell to what
was read of the second, so that both are kept in reverse, the newest character in front. -/
namespace ProgramAnalysis

namespace Text

variable {s t u : List Char} {n m : Nat} {c d : Char}

/-! ### Scripts of edits -/

/-- One character is inserted, deleted or replaced. -/
inductive Edit : List Char → List Char → Prop
  | insert (before after : List Char) (c : Char) : Edit (before ++ after) (before ++ c :: after)
  | delete (before after : List Char) (c : Char) : Edit (before ++ c :: after) (before ++ after)
  | substitute (before after : List Char) (c d : Char) :
      Edit (before ++ c :: after) (before ++ d :: after)

/-- So many edits, one after the other. -/
inductive Edits : Nat → List Char → List Char → Prop
  | none (s : List Char) : Edits 0 s s
  | step {n : Nat} {s t u : List Char} : Edit s t → Edits n t u → Edits (n + 1) s u

theorem Edit.cons (c : Char) (h : Edit s t) : Edit (c :: s) (c :: t) := by
  cases h with
  | insert before after d => exact .insert (c :: before) after d
  | delete before after d => exact .delete (c :: before) after d
  | substitute before after d e => exact .substitute (c :: before) after d e

theorem Edit.symm (h : Edit s t) : Edit t s := by
  cases h with
  | insert before after c => exact .delete before after c
  | delete before after c => exact .insert before after c
  | substitute before after c d => exact .substitute before after d c

theorem Edit.reverse (h : Edit s t) : Edit s.reverse t.reverse := by
  cases h with
  | insert before after c => simpa using Edit.insert after.reverse before.reverse c
  | delete before after c => simpa using Edit.delete after.reverse before.reverse c
  | substitute before after c d => simpa using Edit.substitute after.reverse before.reverse c d

theorem Edits.cons (c : Char) (h : Edits n s t) : Edits n (c :: s) (c :: t) := by
  induction h with
  | none s => exact .none _
  | step he _ ih => exact .step (he.cons c) ih

theorem Edits.trans (hst : Edits n s t) (htu : Edits m t u) : Edits (n + m) s u := by
  induction hst with
  | none s => simpa using htu
  | @step n _ _ _ he _ ih => simpa [Nat.add_right_comm] using Edits.step he (ih htu)

theorem Edits.symm (h : Edits n s t) : Edits n t s := by
  induction h with
  | none s => exact .none s
  | step he _ ih => exact ih.trans (.step he.symm (.none _))

theorem Edits.reverse (h : Edits n s t) : Edits n s.reverse t.reverse := by
  induction h with
  | none s => exact .none _
  | step he _ ih => exact .step he.reverse ih

theorem Edits.eq_of_zero (h : Edits 0 s t) : s = t := by
  cases h
  rfl

/-! ### The distance by its recursion -/

/-- The last characters are deleted, inserted, or put one for the other. -/
def reversedDistance : List Char → List Char → Nat
  | [], t => t.length
  | s, [] => s.length
  | c :: s, d :: t =>
    min (min (reversedDistance s (d :: t) + 1) (reversedDistance (c :: s) t + 1))
      (reversedDistance s t + if c = d then 0 else 1)

theorem reversedDistance_nil_left (t : List Char) : reversedDistance [] t = t.length := by
  rw [reversedDistance]

theorem reversedDistance_nil_right (s : List Char) : reversedDistance s [] = s.length := by
  cases s <;> simp [reversedDistance]

theorem reversedDistance_cons_left_le (c : Char) (s t : List Char) :
    reversedDistance (c :: s) t ≤ reversedDistance s t + 1 := by
  cases t with
  | nil => simp [reversedDistance_nil_right]
  | cons d t => rw [reversedDistance]; omega

theorem reversedDistance_cons_right_le (d : Char) (s t : List Char) :
    reversedDistance s (d :: t) ≤ reversedDistance s t + 1 := by
  cases s with
  | nil => simp [reversedDistance_nil_left]
  | cons c s => rw [reversedDistance]; omega

theorem reversedDistance_le_cons_left (c : Char) (s t : List Char) :
    reversedDistance s t ≤ reversedDistance (c :: s) t + 1 := by
  induction t with
  | nil => simp only [reversedDistance_nil_right, List.length_cons]; omega
  | cons d t ih =>
    have hinsert := reversedDistance_cons_right_le d s t
    rw [reversedDistance.eq_3]
    omega

theorem reversedDistance_self (s : List Char) : reversedDistance s s = 0 := by
  induction s with
  | nil => exact reversedDistance_nil_left []
  | cons c s ih => simp [reversedDistance, ih]

theorem reversedDistance_replace_le (c d : Char) (s u : List Char) :
    reversedDistance (c :: s) u ≤ reversedDistance (d :: s) u + 1 := by
  induction u with
  | nil => simp [reversedDistance_nil_right]
  | cons e u ih =>
    rw [reversedDistance, reversedDistance]
    split <;> split <;> omega

/-- What holds of all goals for the rest of two words holds with the same character in front. -/
theorem reversedDistance_cons_le (c : Char)
    (h : ∀ u, reversedDistance s u ≤ reversedDistance t u + 1) (u : List Char) :
    reversedDistance (c :: s) u ≤ reversedDistance (c :: t) u + 1 := by
  induction u with
  | nil =>
    have := h []
    simp only [reversedDistance_nil_right, List.length_cons] at this ⊢
    omega
  | cons e u ih =>
    have hdelete := h (e :: u)
    have hpair := h u
    rw [reversedDistance, reversedDistance]
    omega

/-- One edit changes the distance to any third word by one at most. -/
theorem Edit.reversedDistance_le (h : Edit s t) (u : List Char) :
    reversedDistance s u ≤ reversedDistance t u + 1 := by
  cases h with
  | insert before after c =>
    induction before generalizing u with
    | nil => exact reversedDistance_le_cons_left c after u
    | cons b before ih => exact reversedDistance_cons_le b ih u
  | delete before after c =>
    induction before generalizing u with
    | nil => exact reversedDistance_cons_left_le c after u
    | cons b before ih => exact reversedDistance_cons_le b ih u
  | substitute before after c d =>
    induction before generalizing u with
    | nil => exact reversedDistance_replace_le c d after u
    | cons b before ih => exact reversedDistance_cons_le b ih u

theorem Edits.reversedDistance_le (h : Edits n s t) : reversedDistance s t ≤ n := by
  induction h with
  | none s => exact Nat.le_of_eq (reversedDistance_self s)
  | step he _ ih => exact Nat.le_trans (he.reversedDistance_le _) (Nat.succ_le_succ ih)

theorem edits_length (s : List Char) : Edits s.length s [] := by
  induction s with
  | nil => exact .none []
  | cons c s ih => exact .step (.delete [] s c) ih

/-- There is a script as short as the recursion says: the choice that is least is an edit in
front, or keeps what is in front. -/
theorem edits_reversedDistance (s t : List Char) : Edits (reversedDistance s t) s t := by
  fun_induction reversedDistance s t with
  | case1 t => exact (edits_length t).symm
  | case2 s => exact edits_length s
  | case3 c s d t ihdelete ihinsert ihpair =>
    have hdelete : Edits (reversedDistance s (d :: t) + 1) (c :: s) (d :: t) :=
      .step (.delete [] s c) ihdelete
    have hinsert : Edits (reversedDistance (c :: s) t + 1) (c :: s) (d :: t) :=
      .step (.insert [] (c :: s) d) (ihinsert.cons d)
    have hpair : Edits (reversedDistance s t + if c = d then 0 else 1) (c :: s) (d :: t) := by
      split
      · next h => exact h ▸ ihpair.cons c
      · exact .step (.substitute [] s c d) (ihpair.cons d)
    have hleast (a b c : Nat) :
        min (min a b) c = a ∨ min (min a b) c = b ∨ min (min a b) c = c := by
      omega
    rcases hleast (reversedDistance s (d :: t) + 1) (reversedDistance (c :: s) t + 1)
      (reversedDistance s t + if c = d then 0 else 1) with h | h | h
    · rw [h]
      exact hdelete
    · rw [h]
      exact hinsert
    · rw [h]
      exact hpair

/-! ### The rows of the table -/

/-- The cells of the row for `s` after the one for `read`, as `rest` is read. -/
def cellsAfter (s : List Char) : List Char → List Char → List Nat
  | _, [] => []
  | read, d :: rest => reversedDistance s (d :: read) :: cellsAfter s (d :: read) rest

/-- The row of the table for the reverse of `s`. -/
def rowOf (s t : List Char) : List Nat := reversedDistance s [] :: cellsAfter s [] t

theorem extendRow_eq (c : Char) (s read rest : List Char) :
    extendRow c rest (reversedDistance s read) (cellsAfter s read rest)
      (reversedDistance (c :: s) read) = cellsAfter (c :: s) read rest := by
  induction rest generalizing read with
  | nil => rfl
  | cons d rest ih =>
    have hcell : min (min (reversedDistance s (d :: read) + 1)
        (reversedDistance (c :: s) read + 1)) (reversedDistance s read + if c = d then 0 else 1) =
          reversedDistance (c :: s) (d :: read) := by rw [reversedDistance.eq_3]
    simp only [cellsAfter, extendRow, hcell, ih]

theorem nextRow_rowOf (c : Char) (s t : List Char) :
    nextRow t (rowOf s t) c = rowOf (c :: s) t := by
  have hcorner : reversedDistance s [] + 1 = reversedDistance (c :: s) [] := by
    simp [reversedDistance_nil_right]
  simp only [nextRow, rowOf, hcorner, extendRow_eq]

theorem foldl_nextRow (s read t : List Char) :
    s.foldl (nextRow t) (rowOf read t) = rowOf (s.reverse ++ read) t := by
  induction s generalizing read with
  | nil => rfl
  | cons c s ih =>
    rw [List.foldl_cons, nextRow_rowOf, ih, List.reverse_cons, List.append_assoc]
    rfl

theorem cellsAfter_nil (read rest : List Char) :
    cellsAfter [] read rest = List.range' (read.length + 1) rest.length := by
  induction rest generalizing read with
  | nil => rfl
  | cons d rest ih =>
    rw [cellsAfter, ih, reversedDistance_nil_left, List.length_cons, List.length_cons,
      List.range'_succ]

theorem rowOf_nil (t : List Char) : rowOf [] t = List.range (t.length + 1) := by
  rw [rowOf, cellsAfter_nil, reversedDistance_nil_left, List.range_eq_range', List.range'_succ]
  rfl

theorem getLast?_cellsAfter (s read rest : List Char) :
    (reversedDistance s read :: cellsAfter s read rest).getLast? =
      some (reversedDistance s (rest.reverse ++ read)) := by
  induction rest generalizing read with
  | nil => rfl
  | cons d rest ih =>
    rw [cellsAfter, List.getLast?_cons_cons, ih, List.reverse_cons, List.append_assoc]
    rfl

theorem editDistance_eq (s t : List Char) :
    editDistance s t = reversedDistance s.reverse t.reverse := by
  have hlast := getLast?_cellsAfter s.reverse [] t
  rw [editDistance, ← rowOf_nil, foldl_nextRow, List.append_nil, rowOf, hlast, List.append_nil]
  rfl

/-- The distance is the length of the shortest script. -/
theorem isLeast_editDistance (s t : List Char) : IsLeast {n | Edits n s t} (editDistance s t) := by
  rw [editDistance_eq]
  constructor
  · simpa using (edits_reversedDistance s.reverse t.reverse).reverse
  · intro n h
    exact h.reverse.reversedDistance_le

/-! ### The nearest candidate -/

/-- At the least distance, and the first of the candidates there. -/
def IsNearest (word : String) (candidates : List String) (best : String) : Prop :=
  ∃ before after, candidates = before ++ best :: after ∧
    (∀ c ∈ before, editDistance word.toList best.toList < editDistance word.toList c.toList) ∧
    ∀ c ∈ after, editDistance word.toList best.toList ≤ editDistance word.toList c.toList

/-- One more candidate takes the place of the best one if it is nearer. -/
theorem IsNearest.concat {word best : String} {cs : List String} (h : IsNearest word cs best)
    (d : String) : IsNearest word (cs ++ [d])
      (if editDistance word.toList d.toList < editDistance word.toList best.toList then d
        else best) := by
  obtain ⟨before, after, rfl, hbefore, hafter⟩ := h
  split
  · next hlt =>
    refine ⟨before ++ best :: after, [], by simp, fun c hc => ?_, by simp⟩
    rcases List.mem_append.mp hc with hc | hc
    · exact Nat.lt_trans hlt (hbefore c hc)
    · rcases List.mem_cons.mp hc with rfl | hc
      · exact hlt
      · exact Nat.lt_of_lt_of_le hlt (hafter c hc)
  · next hge =>
    refine ⟨before, after ++ [d], by simp, hbefore, fun c hc => ?_⟩
    rcases List.mem_append.mp hc with hc | hc
    · exact hafter c hc
    · rw [List.mem_singleton.mp hc]
      exact Nat.le_of_not_lt hge

theorem isNearest_foldl {word best : String} {seen : List String} (h : IsNearest word seen best)
    (cs : List String) : IsNearest word (seen ++ cs) (cs.foldl (fun best d =>
      if editDistance word.toList d.toList < editDistance word.toList best.toList then d
      else best) best) := by
  induction cs generalizing seen best with
  | nil => simpa using h
  | cons d cs ih => simpa using ih (h.concat d)

theorem isNearest_of_nearest? {word best : String} {cs : List String}
    (h : nearest? word cs = some best) : IsNearest word cs best := by
  cases cs with
  | nil => cases h
  | cons c cs =>
    obtain rfl := Option.some.inj h
    exact isNearest_foldl ⟨[], [], rfl, by simp, by simp⟩ cs

theorem nearest?_eq_none_iff {word : String} {cs : List String} :
    nearest? word cs = none ↔ cs = [] := by
  cases cs <;> simp [nearest?]

/-- A candidate that is nearer than all before it is none of those after one that is nearest. -/
theorem eq_of_nearer {word b b' : String} {before after after' : List String}
    (hsplit : b :: after = before ++ b' :: after')
    (hbefore : ∀ c ∈ before, editDistance word.toList b'.toList < editDistance word.toList c.toList)
    (hafter : ∀ c ∈ after, editDistance word.toList b.toList ≤ editDistance word.toList c.toList) :
    b = b' := by
  cases before with
  | nil => exact (List.cons.inj hsplit).1
  | cons c before =>
    obtain ⟨rfl, rfl⟩ := List.cons.inj hsplit
    have hlt := hbefore b (by simp)
    have hle := hafter b' (by simp)
    omega

theorem IsNearest.unique {word b b' : String} {cs : List String} (h : IsNearest word cs b)
    (h' : IsNearest word cs b') : b = b' := by
  obtain ⟨before, after, rfl, hbefore, hafter⟩ := h
  obtain ⟨before', after', heq, hbefore', hafter'⟩ := h'
  rcases List.append_eq_append_iff.mp heq with ⟨between, rfl, hsplit⟩ | ⟨between, rfl, hsplit⟩
  · exact eq_of_nearer hsplit (fun c hc => hbefore' c (List.mem_append_right _ hc)) hafter
  · exact (eq_of_nearer hsplit (fun c hc => hbefore c (List.mem_append_right _ hc)) hafter').symm

theorem nearest?_eq_some_iff {word best : String} {cs : List String} :
    nearest? word cs = some best ↔ IsNearest word cs best := by
  refine ⟨isNearest_of_nearest?, fun h => ?_⟩
  cases hfound : nearest? word cs with
  | none =>
    obtain ⟨before, after, hcs, _⟩ := h
    rw [nearest?_eq_none_iff.mp hfound] at hcs
    simp at hcs
  | some b => rw [(isNearest_of_nearest? hfound).unique h]

end Text

open Text

/-- Counted in characters, the distance is the least number of edits from one word to another, and
so a metric; and the field that a hint suggests is the earliest of the nearest, of which there is
none only where nothing can be suggested. -/
theorem ConfigError.suggestion_nearest :
    (∀ s t : String,
      IsLeast {n | Edits n s.toList t.toList} (editDistance s.toList t.toList)) ∧
    (∀ s t : String, editDistance s.toList t.toList = 0 ↔ s = t) ∧
    (∀ s t : String, editDistance s.toList t.toList = editDistance t.toList s.toList) ∧
    (∀ s t u : String, editDistance s.toList u.toList ≤
      editDistance s.toList t.toList + editDistance t.toList u.toList) ∧
    ∀ word candidates,
      (∀ best, nearest? word candidates = some best ↔ IsNearest word candidates best) ∧
      (nearest? word candidates = none ↔ candidates = []) ∧
      suggestion word candidates = (nearest? word candidates).elim "No valid fields available"
        fun best => s!"Did you mean '{best}'?" := by
  have hle : ∀ {n s t}, Edits n s t → editDistance s t ≤ n := fun h =>
    (isLeast_editDistance _ _).2 h
  have hedits : ∀ s t, Edits (editDistance s t) s t := fun s t => (isLeast_editDistance s t).1
  refine ⟨fun s t => isLeast_editDistance _ _, fun s t => ⟨fun h => ?_, fun h => ?_⟩,
    fun s t => ?_, fun s t u => ?_,
    fun word cs => ⟨fun _ => nearest?_eq_some_iff, nearest?_eq_none_iff, ?_⟩⟩
  · exact String.toList_inj.mp (h ▸ hedits s.toList t.toList).eq_of_zero
  · exact Nat.le_zero.mp (hle (h ▸ Edits.none _))
  · exact Nat.le_antisymm (hle (hedits _ _).symm) (hle (hedits _ _).symm)
  · exact hle ((hedits _ _).trans (hedits _ _))
  · unfold suggestion
    cases nearest? word cs <;> rfl

end ProgramAnalysis
