import Mathlib.Data.Finset.Card
import Mathlib.Data.Finset.SDiff
import ProgramAnalysis.PointsTo.FlowGraph
import ProgramAnalysis.PointsTo.StoredSet
import ProgramAnalysis.Proofs.Counting

/-! The sets that the operations on stored sets can make are the finite sets of objects. Their vectors
ascend strictly, which searches and merges rely on and every operation keeps, and what an operation
tells of its result is true of the sets. The sets that the solver computes with have the same elements
in the same order. -/
namespace ProgramAnalysis

/-! ### Positions in ascending vectors -/

section Positions

variable {xs ys out : Array ObjId} {o x : ObjId} {i j : Nat} {P Q : ObjId → Prop}

theorem Ascending.getElem_lt (h : Ascending xs.toList) (hij : i < j) (hj : j < xs.size) :
    xs[i].index < xs[j].index :=
  List.pairwise_iff_getElem.mp h i j (by simpa using Nat.lt_trans hij hj) (by simpa using hj) hij

/-- An object put between those below it and those above it. -/
theorem Ascending.insertIdx (h : Ascending xs.toList) (hi : i ≤ xs.size)
    (hbelow : ∀ k (_ : k < xs.size), k < i → xs[k].index < o.index)
    (habove : ∀ k (_ : k < xs.size), i ≤ k → o.index < xs[k].index) :
    Ascending (xs.insertIdx i o hi).toList := by
  refine List.pairwise_iff_getElem.mpr fun k j hk hj hkj => ?_
  rw [Array.length_toList, Array.size_insertIdx] at hj
  show (_ : ObjId).index < (_ : ObjId).index
  simp only [Array.getElem_toList, Array.getElem_insertIdx]
  rcases Nat.lt_trichotomy k i with hki | rfl | hki
  · rw [dif_pos hki]
    split
    · exact h.getElem_lt hkj _
    · split
      · exact hbelow k _ hki
      · exact h.getElem_lt (by omega) _
  · rw [dif_neg (Nat.lt_irrefl k), dif_pos rfl, dif_neg (Nat.lt_asymm hkj),
      dif_neg (Nat.ne_of_gt hkj)]
    exact habove (j - 1) _ (by omega)
  · rw [dif_neg (Nat.lt_asymm hki), dif_neg (Nat.ne_of_gt hki),
      dif_neg (Nat.lt_asymm (Nat.lt_trans hki hkj)), dif_neg (Nat.ne_of_gt (Nat.lt_trans hki hkj))]
    exact h.getElem_lt (by omega) _

/-- The object stands in the vector at position `i` or behind it. -/
def From (xs : Array ObjId) (i : Nat) (o : ObjId) : Prop := o ∈ xs.toList.drop i

theorem from_zero : From xs 0 o ↔ o ∈ xs := Array.mem_toList_iff

theorem from_iff (hi : i < xs.size) : From xs i o ↔ o = xs[i] ∨ From xs (i + 1) o := by
  have hlength : i < xs.toList.length := hi
  unfold From
  rw [List.drop_eq_getElem_cons hlength, List.mem_cons, Array.getElem_toList]

theorem not_from (hi : ¬ i < xs.size) : ¬ From xs i o := by
  unfold From
  rw [List.drop_of_length_le (Nat.le_of_not_lt hi)]
  exact List.not_mem_nil

theorem Ascending.lt_of_from (h : Ascending xs.toList) (hi : i < xs.size)
    (ho : From xs (i + 1) o) : xs[i].index < o.index := by
  have hdrop : Ascending (xs.toList.drop i) := List.Pairwise.drop h
  have hlength : i < xs.toList.length := hi
  rw [List.drop_eq_getElem_cons hlength] at hdrop
  exact (List.pairwise_cons.mp hdrop).1 o ho

theorem Ascending.not_from_of_lt (h : Ascending xs.toList) (hi : i < xs.size)
    (hlt : o.index < xs[i].index) : ¬ From xs i o := by
  intro ho
  rcases (from_iff hi).mp ho with rfl | ho
  · exact Nat.lt_irrefl _ hlt
  · exact Nat.lt_asymm hlt (h.lt_of_from hi ho)

theorem Ascending.not_from_self (h : Ascending xs.toList) (hi : i < xs.size) :
    ¬ From xs (i + 1) xs[i] :=
  fun ho => Nat.lt_irrefl _ (h.lt_of_from hi ho)

/-- `xs` has the objects with `P` behind `out`, in ascending order. -/
def Adds (out : Array ObjId) (P : ObjId → Prop) (xs : Array ObjId) : Prop :=
  ∃ rest, xs.toList = out.toList ++ rest ∧ Ascending rest ∧ ∀ o, o ∈ rest ↔ P o

theorem Adds.congr (h : Adds out P xs) (hpq : ∀ x, P x ↔ Q x) : Adds out Q xs := by
  obtain ⟨rest, hxs, hrest, hmem⟩ := h
  exact ⟨rest, hxs, hrest, fun x => (hmem x).trans (hpq x)⟩

/-- The least object is put first. -/
theorem Adds.push (h : Adds (out.push o) P xs) (hlt : ∀ x, P x → o.index < x.index) :
    Adds out (fun x => x = o ∨ P x) xs := by
  obtain ⟨rest, hxs, hrest, hmem⟩ := h
  refine ⟨o :: rest, ?_, ?_, fun x => ?_⟩
  · rw [hxs, Array.toList_push, List.append_assoc]
    rfl
  · exact List.pairwise_cons.mpr ⟨fun x hx => hlt x ((hmem x).mp hx), hrest⟩
  · rw [List.mem_cons, hmem]

theorem adds_from (h : Ascending xs.toList) (out : Array ObjId) (i : Nat) :
    Adds out (From xs i) (out ++ xs.extract i) :=
  ⟨xs.toList.drop i, by simp, List.Pairwise.drop h, fun _ => Iff.rfl⟩

theorem adds_nothing (out : Array ObjId) : Adds out (fun _ => False) out :=
  ⟨[], by simp, List.Pairwise.nil, fun _ => by simp⟩

end Positions

namespace StoredSet

/-! ### Merges -/

section Merges

variable {xs ys : Array ObjId} (hx : Ascending xs.toList) (hy : Ascending ys.toList)
include hx hy

theorem differenceFrom_adds (i j : Nat) (out : Array ObjId) :
    Adds out (fun o => From xs i o ∧ ¬ From ys j o) (differenceFrom xs ys i j out) := by
  fun_induction differenceFrom xs ys i j out with
  | case1 i j out hi hj hlt ih =>
    have hnot := hy.not_from_of_lt hj hlt
    refine (ih.push fun o ho => hx.lt_of_from hi ho.1).congr fun o => ?_
    rw [from_iff hi]
    grind
  | case2 i j out hi hj _ heq ih =>
    have heq : xs[i] = ys[j] := Handle.index_injective heq
    have hnot := hx.not_from_self hi
    refine ih.congr fun o => ?_
    rw [from_iff hi, from_iff hj]
    grind
  | case3 i j out hi hj hle hne ih =>
    have hnot : ¬ From xs i ys[j] := hx.not_from_of_lt hi (by omega)
    refine ih.congr fun o => ?_
    rw [from_iff hj]
    grind
  | case4 i j out hi hj =>
    exact (adds_from hx out i).congr fun o => ⟨fun ho => ⟨ho, not_from hj⟩, fun ho => ho.1⟩
  | case5 i j out hi =>
    exact (adds_nothing out).congr fun o => ⟨False.elim, fun ho => not_from hi ho.1⟩

theorem mergeFrom_adds (i j : Nat) (out : Array ObjId) :
    Adds out (fun o => From xs i o ∨ From ys j o) (mergeFrom xs ys i j out) := by
  fun_induction mergeFrom xs ys i j out with
  | case1 i j out h hlt ih =>
    refine (ih.push fun o ho => ?_).congr fun o => ?_
    · rcases ho with ho | ho
      · exact hx.lt_of_from h.1 ho
      · rcases (from_iff h.2).mp ho with rfl | ho
        · exact hlt
        · exact Nat.lt_trans hlt (hy.lt_of_from h.2 ho)
    · rw [from_iff h.1, or_assoc]
  | case2 i j out h _ hlt ih =>
    refine (ih.push fun o ho => ?_).congr fun o => ?_
    · rcases ho with ho | ho
      · rcases (from_iff h.1).mp ho with rfl | ho
        · exact hlt
        · exact Nat.lt_trans hlt (hx.lt_of_from h.1 ho)
      · exact hy.lt_of_from h.2 ho
    · rw [from_iff h.2, or_left_comm]
  | case3 i j out h hle hge ih =>
    have heq : xs[i] = ys[j] := Handle.index_injective (by show xs[i].index = ys[j].index; omega)
    refine (ih.push fun o ho => ?_).congr fun o => ?_
    · rcases ho with ho | ho
      · exact hx.lt_of_from h.1 ho
      · exact heq ▸ hy.lt_of_from h.2 ho
    · rw [from_iff h.1, from_iff h.2, heq]
      grind
  | case4 i j out h =>
    by_cases hi : i < xs.size
    · have hj : ¬ j < ys.size := fun hj => h ⟨hi, hj⟩
      have hys : ys.extract j = #[] := by simpa using hj
      rw [hys, Array.append_empty]
      exact (adds_from hx out i).congr fun o => ⟨.inl, fun ho => ho.resolve_right (not_from hj)⟩
    · have hxs : xs.extract i = #[] := by simpa using hi
      rw [hxs, Array.append_empty]
      exact (adds_from hy out j).congr fun o => ⟨.inr, fun ho => ho.resolve_left (not_from hi)⟩

theorem meetsFrom_iff (i j : Nat) :
    meetsFrom xs ys i j = true ↔ ∃ o, From xs i o ∧ From ys j o := by
  fun_induction meetsFrom xs ys i j with
  | case1 i j h hlt ih =>
    have hnot := hy.not_from_of_lt h.2 hlt
    rw [ih]
    refine exists_congr fun o => ?_
    rw [from_iff h.1]
    grind
  | case2 i j h _ hlt ih =>
    have hnot := hx.not_from_of_lt h.1 hlt
    rw [ih]
    refine exists_congr fun o => ?_
    rw [from_iff h.2]
    grind
  | case3 i j h hle hge =>
    have heq : xs[i] = ys[j] := Handle.index_injective (by show xs[i].index = ys[j].index; omega)
    refine iff_of_true rfl ⟨xs[i], (from_iff h.1).mpr (.inl rfl), (from_iff h.2).mpr (.inl heq)⟩
  | case4 i j h =>
    refine iff_of_false Bool.false_ne_true ?_
    rintro ⟨o, hi, hj⟩
    refine h ⟨?_, ?_⟩
    · by_contra hge
      exact not_from hge hi
    · by_contra hge
      exact not_from hge hj

end Merges

/-! ### Searches -/

/-- The object stands there, or it would keep the vector ascending there. -/
def Position.Fits (xs : Array ObjId) (o : ObjId) : Position xs.size → Prop
  | .present i => xs[i] = o
  | .absent i => (∀ k (_ : k < xs.size), k < i → xs[k].index < o.index) ∧
      ∀ k (_ : k < xs.size), i ≤ k → o.index < xs[k].index

theorem searchIn_fits {xs : Array ObjId} (hx : Ascending xs.toList) {o : ObjId} {lo hi : Nat}
    {hlo : lo ≤ hi} {hhi : hi ≤ xs.size}
    (hbelow : ∀ k (_ : k < xs.size), k < lo → xs[k].index < o.index)
    (habove : ∀ k (_ : k < xs.size), hi ≤ k → o.index < xs[k].index) :
    (searchIn xs o lo hi hlo hhi).Fits xs o := by
  fun_induction searchIn xs o lo hi hlo hhi with
  | case1 lo hi hlo hhi hlt mid hmid hless ih =>
    refine ih (fun k hk hkmid => ?_) habove
    rcases Nat.lt_or_eq_of_le (Nat.le_of_lt_succ hkmid) with hkmid | rfl
    · exact Nat.lt_trans (hx.getElem_lt hkmid hmid) hless
    · exact hless
  | case2 lo hi hlo hhi hlt mid hmid _ hless ih =>
    refine ih hbelow fun k hk hkmid => ?_
    rcases Nat.lt_or_eq_of_le hkmid with hkmid | rfl
    · exact Nat.lt_trans hless (hx.getElem_lt hkmid hk)
    · exact hless
  | case3 lo hi hlo hhi hlt mid hmid hle hge =>
    exact Handle.index_injective (by show xs[mid].index = o.index; omega)
  | case4 lo hi hlo hhi hlt =>
    exact ⟨hbelow, fun k hk hk' => habove k hk (by dsimp only at hk'; omega)⟩

variable {s t : StoredSet} {o x : ObjId}

instance : Membership ObjId StoredSet := ⟨fun s o => o ∈ s.elems⟩

def Sorted (s : StoredSet) : Prop := Ascending s.elems.toList

theorem Sorted.ext (hs : s.Sorted) (ht : t.Sorted) (h : ∀ o, o ∈ s ↔ o ∈ t) : s = t := by
  obtain ⟨xs⟩ := s
  obtain ⟨ys⟩ := t
  have hlist : xs.toList = ys.toList :=
    eq_of_ascending hs ht fun o => Array.mem_toList_iff.trans ((h o).trans Array.mem_toList_iff.symm)
  exact congrArg mk (Array.toList_inj.mp hlist)

theorem Sorted.search_fits (hs : s.Sorted) (o : ObjId) : (s.search o).Fits s.elems o :=
  searchIn_fits hs (fun _ _ hk => absurd hk (Nat.not_lt_zero _))
    fun _ hk hk' => absurd hk (Nat.not_lt_of_le hk')

theorem not_mem_of_fits {i : Fin (s.elems.size + 1)} (h : (Position.absent i).Fits s.elems o) :
    o ∉ s := by
  intro ho
  obtain ⟨k, hk, rfl⟩ := Array.mem_iff_getElem.mp ho
  rcases Nat.lt_or_ge k i with hki | hki
  · exact Nat.lt_irrefl _ (h.1 k hk hki)
  · exact Nat.lt_irrefl _ (h.2 k hk hki)

theorem Sorted.contains_iff (hs : s.Sorted) : s.contains o = true ↔ o ∈ s := by
  have hfits := hs.search_fits o
  unfold contains
  cases hsearch : s.search o with
  | present i =>
    rw [hsearch] at hfits
    have hget : s.elems[i] = o := hfits
    exact iff_of_true rfl (hget ▸ Array.getElem_mem i.2)
  | absent i =>
    rw [hsearch] at hfits
    exact iff_of_false Bool.false_ne_true (not_mem_of_fits hfits)

/-! ### Each operation -/

theorem Sorted.insert_fst (hs : s.Sorted) : (s.insert o).1 = true ↔ o ∉ s := by
  rw [← hs.contains_iff]
  unfold insert contains
  cases s.search o <;> simp

theorem Sorted.insert (hs : s.Sorted) (o : ObjId) : (s.insert o).2.Sorted := by
  have hfits := hs.search_fits o
  unfold StoredSet.insert
  cases hsearch : s.search o with
  | present i => exact hs
  | absent i =>
    rw [hsearch] at hfits
    exact Ascending.insertIdx hs (Nat.le_of_lt_succ i.2) hfits.1 hfits.2

theorem Sorted.mem_insert (hs : s.Sorted) : x ∈ (s.insert o).2 ↔ x = o ∨ x ∈ s := by
  have hfits := hs.search_fits o
  unfold StoredSet.insert
  cases hsearch : s.search o with
  | present i =>
    rw [hsearch] at hfits
    have ho : o ∈ s := (show s.elems[i] = o from hfits) ▸ Array.getElem_mem i.2
    exact ⟨.inr, fun hx => hx.elim (fun hx => hx.symm ▸ ho) id⟩
  | absent i =>
    have hi : i.1 ≤ s.elems.toList.length := Nat.le_of_lt_succ i.2
    show x ∈ s.elems.insertIdx i.1 o hi ↔ _
    rw [← Array.mem_toList_iff, Array.toList_insertIdx, List.mem_insertIdx hi, Array.mem_toList_iff]
    rfl

/-- What is put behind nothing is all there is. -/
theorem sorted_of_adds {P : ObjId → Prop} {u : StoredSet} (h : Adds #[] P u.elems) :
    u.Sorted ∧ ∀ o, o ∈ u ↔ P o := by
  obtain ⟨rest, hu, hrest, hmem⟩ := h
  have hu : u.elems.toList = rest := by simpa using hu
  subst hu
  exact ⟨hrest, fun o => Array.mem_toList_iff.symm.trans (hmem o)⟩

theorem Sorted.difference (hs : s.Sorted) (ht : t.Sorted) :
    (s.difference t).Sorted ∧ ∀ o, o ∈ s.difference t ↔ o ∈ s ∧ o ∉ t :=
  sorted_of_adds ((differenceFrom_adds hs ht 0 0 #[]).congr fun _ =>
    and_congr from_zero (not_congr from_zero))

theorem Sorted.unionWith (hs : s.Sorted) (ht : t.Sorted) :
    (s.unionWith t).2.Sorted ∧ ∀ o, o ∈ (s.unionWith t).2 ↔ o ∈ s ∨ o ∈ t := by
  have hnone : ∀ {u : StoredSet}, u.isEmpty = true → ∀ o, o ∉ u := fun {u} hu o ho => by
    have hu : u.elems = #[] := Array.isEmpty_iff.mp hu
    have ho : o ∈ u.elems := ho
    simp [hu] at ho
  unfold StoredSet.unionWith
  split
  · next hempty => exact ⟨hs, fun o => by simp [hnone hempty]⟩
  · split
    · next hempty => exact ⟨ht, fun o => by simp [hnone hempty]⟩
    · exact sorted_of_adds ((mergeFrom_adds hs ht 0 0 #[]).congr fun _ =>
        or_congr from_zero from_zero)

theorem mem_dropRepeats {xs : List ObjId} : x ∈ dropRepeats xs ↔ x ∈ xs := by
  fun_induction dropRepeats xs with
  | case1 a rest ih => simp [ih]
  | case2 a b rest hne ih => rw [List.mem_cons, ih, List.mem_cons (l := b :: rest)]
  | case3 xs => rfl

theorem ascending_dropRepeats {xs : List ObjId}
    (h : xs.Pairwise fun a b => a.index ≤ b.index) : Ascending (dropRepeats xs) := by
  fun_induction dropRepeats xs with
  | case1 a rest ih => exact ih (List.pairwise_cons.mp h).2
  | case2 a b rest hne ih =>
    obtain ⟨ha, hrest⟩ := List.pairwise_cons.mp h
    refine List.pairwise_cons.mpr ⟨fun x hx => ?_, ih hrest⟩
    have hab : a.index < b.index :=
      Nat.lt_of_le_of_ne (ha b List.mem_cons_self) fun he => hne (Handle.index_injective he)
    rcases List.mem_cons.mp (mem_dropRepeats.mp hx) with rfl | hx
    · exact hab
    · exact Nat.lt_of_lt_of_le hab ((List.pairwise_cons.mp hrest).1 x hx)
  | case3 xs hshort =>
    match xs with
    | [] => exact .nil
    | [a] => exact List.pairwise_singleton _ a
    | a :: b :: rest => exact absurd rfl (hshort a b rest)

theorem sorted_collect (xs : List ObjId) : (collect xs).Sorted := by
  refine ascending_dropRepeats ?_
  have hsorted : (xs.mergeSort fun a b => a.index ≤ b.index).Pairwise
      fun a b => decide (a.index ≤ b.index) = true :=
    List.pairwise_mergeSort (fun a b c hab hbc => by simp only [decide_eq_true_eq] at *; omega)
      (fun a b => by simp only [Bool.or_eq_true, decide_eq_true_eq]; omega) xs
  exact hsorted.imp of_decide_eq_true

theorem mem_collect {xs : List ObjId} : o ∈ collect xs ↔ o ∈ xs := by
  show o ∈ (dropRepeats _).toArray ↔ _
  rw [List.mem_toArray, mem_dropRepeats, List.mem_mergeSort]

/-! ### As finite sets -/

/-- What the operations can make. -/
inductive Made : StoredSet → Prop
  | empty : Made empty
  | singleton (o : ObjId) : Made (singleton o)
  | collect (xs : List ObjId) : Made (collect xs)
  | insert {s : StoredSet} (hs : Made s) (o : ObjId) : Made (s.insert o).2
  | difference {s t : StoredSet} (hs : Made s) (ht : Made t) : Made (s.difference t)
  | unionWith {s t : StoredSet} (hs : Made s) (ht : Made t) : Made (s.unionWith t).2

theorem Made.sorted (h : s.Made) : s.Sorted := by
  induction h with
  | empty => exact List.Pairwise.nil
  | singleton o => exact List.pairwise_singleton _ o
  | collect xs => exact sorted_collect xs
  | insert _ o ih => exact ih.insert o
  | difference _ _ ihs iht => exact (ihs.difference iht).1
  | unionWith _ _ ihs iht => exact (ihs.unionWith iht).1

/-- The objects in the vector. -/
def ids (s : StoredSet) : Finset ObjId := s.elems.toList.toFinset

@[simp] theorem mem_ids : o ∈ s.ids ↔ o ∈ s := by
  rw [ids, List.mem_toFinset]
  exact Array.mem_toList_iff

theorem Sorted.card_ids (hs : s.Sorted) : s.ids.card = s.size :=
  List.toFinset_card_of_nodup (HandleSet.nodup_elems ⟨s.elems.toList, hs⟩)

theorem Sorted.ids_inj (hs : s.Sorted) (ht : t.Sorted) : s.ids = t.ids ↔ s = t :=
  ⟨fun h => hs.ext ht fun o => by rw [← mem_ids, h, mem_ids], congrArg ids⟩

theorem Sorted.isSubset_iff (hs : s.Sorted) (ht : t.Sorted) :
    s.isSubset t = true ↔ s.ids ⊆ t.ids := by
  simp only [isSubset, Bool.and_eq_true, decide_eq_true_eq, Array.all_eq_true', ht.contains_iff]
  refine ⟨fun h o ho => mem_ids.mpr (h.2 o (mem_ids.mp ho)), fun h => ⟨?_, fun o ho => ?_⟩⟩
  · rw [← hs.card_ids, ← ht.card_ids]
    exact Finset.card_le_card h
  · exact mem_ids.mp (h (mem_ids.mpr ho))

theorem Sorted.intersects_iff (hs : s.Sorted) (ht : t.Sorted) :
    s.intersects t = true ↔ (s.ids ∩ t.ids).Nonempty := by
  unfold intersects
  rw [meetsFrom_iff hs ht]
  refine exists_congr fun o => ?_
  rw [Finset.mem_inter, mem_ids, mem_ids, from_zero, from_zero]
  rfl

theorem Sorted.size_lt_iff (hs : s.Sorted) (ht : t.Sorted) (hsub : ∀ o ∈ s, o ∈ t) :
    s.size < t.size ↔ ∃ o ∈ t, o ∉ s := by
  rw [← hs.card_ids, ← ht.card_ids]
  constructor
  · intro hlt
    obtain ⟨o, ho, hnew⟩ := Finset.exists_mem_notMem_of_card_lt_card hlt
    exact ⟨o, mem_ids.mp ho, fun h => hnew (mem_ids.mpr h)⟩
  · intro ⟨o, ho, hnew⟩
    refine Finset.card_lt_card (Finset.ssubset_iff_of_subset ?_ |>.mpr ?_)
    · exact fun o ho => mem_ids.mpr (hsub o (mem_ids.mp ho))
    · exact ⟨o, mem_ids.mpr ho, fun h => hnew (mem_ids.mp h)⟩

/-- On each of the three ways a union tells whether the vector got longer. -/
theorem unionWith_fst (s t : StoredSet) :
    (s.unionWith t).1 = true ↔ s.size < (s.unionWith t).2.size := by
  unfold unionWith
  split
  · exact iff_of_false Bool.false_ne_true (Nat.lt_irrefl _)
  · next ht =>
    split
    · next hs =>
      have hs : s.elems.size = 0 := by simpa [isEmpty] using hs
      have ht : t.elems.size ≠ 0 := by simpa [isEmpty] using ht
      exact iff_of_true rfl (by show s.elems.size < t.elems.size; omega)
    · exact decide_eq_true_iff

theorem Sorted.unionWith_grows (hs : s.Sorted) (ht : t.Sorted) :
    (s.unionWith t).1 = true ↔ ∃ o ∈ (s.unionWith t).2, o ∉ s := by
  obtain ⟨hunion, hmem⟩ := hs.unionWith ht
  rw [unionWith_fst]
  exact hs.size_lt_iff hunion fun o ho => (hmem o).mpr (.inl ho)

/-- The vector of `s` ascends strictly, and each operation on `s` and `t` is the one on the finite sets
of their objects and tells truly what it has done. -/
structure ActAsSets (s t : StoredSet) : Prop where
  ascending : s.elems.toList.Pairwise fun a b => a.index < b.index
  contains : ∀ o, s.contains o = true ↔ o ∈ s.ids
  insert : ∀ o, (s.insert o).2.ids = Insert.insert o s.ids
  insert_new : ∀ o, (s.insert o).1 = true ↔ o ∉ s.ids
  difference : (s.difference t).ids = s.ids \ t.ids
  union : (s.unionWith t).2.ids = s.ids ∪ t.ids
  union_grew : (s.unionWith t).1 = true ↔ ∃ o ∈ (s.unionWith t).2.ids, o ∉ s.ids
  subset : s.isSubset t = true ↔ s.ids ⊆ t.ids
  intersects : s.intersects t = true ↔ (s.ids ∩ t.ids).Nonempty
  eq : (s == t) = true ↔ s.ids = t.ids
  size : s.size = s.ids.card

/-- The sets that the operations make are the finite sets of objects. -/
theorem made_finite_sets (hs : s.Made) (ht : t.Made) :
    empty.ids = ∅ ∧ (∀ o, (singleton o).ids = {o}) ∧ (∀ xs, (collect xs).ids = xs.toFinset) ∧
      ActAsSets s t := by
  have hs := hs.sorted
  have ht := ht.sorted
  refine ⟨rfl, fun o => rfl, fun xs => ?collect, ⟨hs, fun o => ?contains, fun o => ?insert,
    fun o => ?insert_new, ?difference, ?union, ?union_grew, hs.isSubset_iff ht, hs.intersects_iff ht,
    beq_iff_eq.trans (hs.ids_inj ht).symm, hs.card_ids.symm⟩⟩
  case collect =>
    ext o
    rw [mem_ids, mem_collect, List.mem_toFinset]
  case contains => rw [hs.contains_iff, mem_ids]
  case insert =>
    ext x
    rw [mem_ids, hs.mem_insert, Finset.mem_insert, mem_ids]
  case insert_new => rw [hs.insert_fst, mem_ids]
  case difference =>
    ext o
    rw [mem_ids, (hs.difference ht).2, Finset.mem_sdiff, mem_ids, mem_ids]
  case union =>
    ext o
    rw [mem_ids, (hs.unionWith ht).2, Finset.mem_union, mem_ids, mem_ids]
  case union_grew =>
    simp only [mem_ids]
    exact hs.unionWith_grows ht

/-- Two sets that have one object in common. -/
def collected : StoredSet := collect [⟨5⟩, ⟨1⟩, ⟨5⟩, ⟨3⟩]

def inserted : StoredSet := ((singleton ⟨3⟩).insert ⟨2⟩).2

theorem made_finite_sets_sample :
    collected.Made ∧ inserted.Made ∧ collected.size = 3 ∧
      (collected.unionWith inserted).2.ids = {⟨1⟩, ⟨2⟩, ⟨3⟩, ⟨5⟩} ∧
      (collected.unionWith inserted).1 = true ∧
      (collected.difference inserted).ids = {⟨1⟩, ⟨5⟩} ∧
      collected.intersects inserted = true ∧ collected.isSubset inserted = false := by
  have hcollected : collected.Made := .collect _
  have hinserted : inserted.Made := .insert (.singleton _) _
  obtain ⟨-, hsingleton, hcollect, h⟩ := made_finite_sets hcollected hinserted
  obtain ⟨-, -, -, hthree⟩ := made_finite_sets (.singleton ⟨3⟩) .empty
  have hids : collected.ids = {⟨5⟩, ⟨1⟩, ⟨3⟩} := (hcollect _).trans (by decide)
  have hids' : inserted.ids = {⟨2⟩, ⟨3⟩} :=
    (hthree.insert ⟨2⟩).trans (by rw [hsingleton])
  have hunion := h.union
  have hgrew := h.union_grew
  rw [hunion, hids, hids'] at hgrew
  rw [hids, hids'] at hunion
  refine ⟨hcollected, hinserted, ?_, hunion.trans (by decide), hgrew.mpr ⟨⟨2⟩, by decide⟩, ?_, ?_, ?_⟩
  · rw [h.size, hids]
    decide
  · rw [h.difference, hids, hids']
    decide
  · refine h.intersects.mpr ⟨⟨3⟩, ?_⟩
    rw [hids, hids']
    decide
  · refine Bool.eq_false_iff.mpr fun hsub => ?_
    have hsub := h.subset.mp hsub
    rw [hids, hids'] at hsub
    exact absurd hsub (by decide)

end StoredSet

/-! ### The sets of the solver -/

/-- The set as a vector. -/
def HandleSet.stored (a : ObjSet) : StoredSet := ⟨a.elems.toArray⟩

namespace StoredSet

variable {a b : ObjSet} {o : ObjId}

theorem sorted_stored (a : ObjSet) : a.stored.Sorted := a.ascending

theorem mem_stored : o ∈ a.stored ↔ o ∈ a := List.mem_toArray

/-- Every set that the operations make is such a vector. -/
theorem Made.exists_stored {s : StoredSet} (h : s.Made) : ∃ a : ObjSet, s = a.stored :=
  ⟨⟨s.elems.toList, h.sorted⟩, congrArg mk s.elems.toArray_toList.symm⟩

theorem collect_eq (xs : List ObjId) : collect xs = HandleSet.stored (.ofList xs) :=
  (sorted_collect xs).ext (sorted_stored _) fun o => by
    rw [mem_collect, mem_stored, HandleSet.mem_ofList]

theorem contains_stored (a : ObjSet) (o : ObjId) : a.stored.contains o = a.contains o := by
  rw [Bool.eq_iff_iff, (sorted_stored a).contains_iff, mem_stored, HandleSet.contains_iff]

theorem insert_stored (a : ObjSet) (o : ObjId) : (a.stored.insert o).2 = (a.insert o).stored :=
  ((sorted_stored a).insert o).ext (sorted_stored _) fun x => by
    rw [(sorted_stored a).mem_insert, mem_stored, mem_stored, HandleSet.mem_insert]

theorem difference_stored (a b : ObjSet) : a.stored.difference b.stored = (a.diff b).stored := by
  obtain ⟨hsorted, hmem⟩ := (sorted_stored a).difference (sorted_stored b)
  refine hsorted.ext (sorted_stored _) fun o => ?_
  rw [hmem, mem_stored, mem_stored, mem_stored, HandleSet.mem_diff]

theorem unionWith_stored (a b : ObjSet) :
    (a.stored.unionWith b.stored).2 = (a.union b).stored := by
  obtain ⟨hsorted, hmem⟩ := (sorted_stored a).unionWith (sorted_stored b)
  refine hsorted.ext (sorted_stored _) fun o => ?_
  rw [hmem, mem_stored, mem_stored, mem_stored, HandleSet.mem_union]

theorem isSubset_stored (a b : ObjSet) : a.stored.isSubset b.stored = a.subset b := by
  rw [Bool.eq_iff_iff, (sorted_stored a).isSubset_iff (sorted_stored b), HandleSet.subset_iff]
  simp only [Finset.subset_iff, mem_ids, mem_stored]

theorem intersects_stored (a b : ObjSet) : a.stored.intersects b.stored = a.intersects b := by
  rw [Bool.eq_iff_iff, (sorted_stored a).intersects_iff (sorted_stored b),
    HandleSet.intersects_iff]
  simp only [Finset.Nonempty, Finset.mem_inter, mem_ids, mem_stored]

end StoredSet
end ProgramAnalysis
