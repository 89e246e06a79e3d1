import ProgramAnalysis.Constant.Fact
import ProgramAnalysis.Proofs.Handles

/-! Values and facts of constant propagation are semilattices under `meet`, with `undef` at the
bottom of the values and `nac` at the top; facts meet variable by variable. -/
namespace ProgramAnalysis

namespace Value

@[simp] theorem meet_self (x : Value) : x.meet x = x := by
  cases x <;> simp [meet]

theorem meet_comm (x y : Value) : x.meet y = y.meet x := by
  cases x with
  | undef => cases y <;> rfl
  | nac => cases y <;> rfl
  | constant m =>
    cases y with
    | undef | nac => rfl
    | constant n =>
      by_cases h : m = n
      · simp [h]
      · simp [meet, h, Ne.symm h]

theorem meet_assoc (x y z : Value) : (x.meet y).meet z = x.meet (y.meet z) := by
  cases x <;> cases y <;> cases z <;> simp only [meet] <;> grind [meet]

@[simp] theorem undef_meet (x : Value) : undef.meet x = x := by
  cases x <;> rfl

@[simp] theorem meet_undef (x : Value) : x.meet undef = x := by
  cases x <;> rfl

@[simp] theorem nac_meet (x : Value) : nac.meet x = nac := by
  cases x <;> rfl

@[simp] theorem meet_nac (x : Value) : x.meet nac = nac := by
  cases x <;> rfl

theorem meet_meet_eq_right_iff {x y z : Value} :
    (x.meet y).meet z = z ↔ x.meet z = z ∧ y.meet z = z := by
  refine ⟨fun h => ⟨?_, ?_⟩, fun ⟨hx, hy⟩ => ?_⟩
  · rw [← h, ← meet_assoc, ← meet_assoc, meet_self]
  · rw [← h, meet_comm x, ← meet_assoc, ← meet_assoc, meet_self]
  · rw [meet_assoc, hy, hx]

/-- The meet of a list is the least value above its members. -/
theorem foldr_meet_eq_right_iff {xs : List Value} {z : Value} :
    (xs.foldr meet undef).meet z = z ↔ ∀ x ∈ xs, x.meet z = z := by
  induction xs with
  | nil => simp
  | cons x xs ih => rw [List.foldr_cons, meet_meet_eq_right_iff, ih, List.forall_mem_cons]

/-- How often a value has risen. -/
def rank : Value → Nat
  | .undef => 0
  | .constant _ => 1
  | .nac => 2

theorem rank_le (x : Value) : x.rank ≤ 2 := by
  cases x <;> simp [rank]

theorem rank_lt {x y : Value} (h : x.meet y = y) (hne : x ≠ y) : x.rank < y.rank := by
  cases x with
  | undef =>
    cases y with
    | undef => exact absurd rfl hne
    | constant _ | nac => simp [rank]
  | constant m =>
    cases y with
    | undef => cases h
    | nac => simp [rank]
    | constant n =>
      simp only [meet] at h
      split at h
      · next heq => exact absurd (congrArg constant heq) hne
      · cases h
  | nac =>
    rw [nac_meet] at h
    exact absurd h hne

theorem value_of_known? {x : Value} {k : Known} (h : x.known? = some k) : k.value = x := by
  cases x <;> cases h <;> rfl

theorem eq_undef_of_known? {x : Value} (h : x.known? = none) : x = undef := by
  cases x <;> first | rfl | cases h

theorem value_ne_undef (k : Known) : k.value ≠ undef := by
  cases k <;> nofun

end Value

namespace Fact

variable {f g t : Fact} {v w : VarId}

@[simp] theorem get_empty (v : VarId) : empty.get v = .undef := rfl

theorem index_eq_iff : Handle.index v = Handle.index w ↔ v = w :=
  ⟨Handle.index_injective, congrArg _⟩

theorem get_set (f : Fact) (v w : VarId) (x : Value) :
    (f.set v x).get w = if v = w then x else f.get w := by
  unfold set get
  cases hx : x.known? with
  | none =>
    rw [HandleMap.get?_erase, Value.eq_undef_of_known? hx]
    by_cases h : v = w
    · simp [h]
    · simp [h, index_eq_iff]
  | some k =>
    rw [HandleMap.get?_insert]
    by_cases h : v = w
    · simp [h, Value.value_of_known? hx]
    · simp [h, index_eq_iff]

theorem get_erase (f : Fact) (v w : VarId) :
    (f.erase v).get w = if v = w then .undef else f.get w := by
  unfold erase get
  rw [HandleMap.get?_erase]
  by_cases h : v = w
  · simp [h]
  · simp [h, index_eq_iff]

theorem get_inj {k l : Option Known} (h : (match k with | none => Value.undef | some k => k.value) =
    match l with | none => Value.undef | some l => l.value) : k = l := by
  cases k with
  | none =>
    cases l with
    | none => rfl
    | some l => exact absurd h.symm (Value.value_ne_undef l)
  | some k =>
    cases l with
    | none => exact absurd h (Value.value_ne_undef k)
    | some l => cases k <;> cases l <;> cases h <;> rfl

theorem ext (h : ∀ v, f.get v = g.get v) : f = g := by
  obtain ⟨known⟩ := f
  obtain ⟨known'⟩ := g
  exact congrArg Fact.mk (HandleMap.ext fun v => get_inj (h v))

/-- What the fact gives is in its list, and nothing else is. -/
theorem mem_toList {x : Value} : (v, x) ∈ f.toList ↔ f.get v = x ∧ x ≠ .undef := by
  unfold toList get
  constructor
  · intro h
    obtain ⟨⟨w, k⟩, hmem, heq⟩ := List.mem_map.mp h
    cases heq
    rw [HandleMap.mem_entries_iff.mp hmem]
    exact ⟨rfl, Value.value_ne_undef k⟩
  · intro ⟨hx, hne⟩
    cases hk : f.known.get? v with
    | none =>
      rw [hk] at hx
      exact absurd hx.symm hne
    | some k =>
      rw [hk] at hx
      exact List.mem_map.mpr ⟨(v, k), HandleMap.mem_entries_iff.mpr hk, by rw [← hx]⟩

theorem nodup_toList (f : Fact) : (f.toList.map (·.1)).Nodup := by
  unfold toList
  rw [List.map_map]
  refine List.pairwise_map.mpr (f.known.ascending.imp fun hlt heq => ?_)
  exact absurd (congrArg Handle.index heq) (Nat.ne_of_lt hlt)

theorem get_foldl_meet_of_notMem {xs : List (VarId × Value)} (h : v ∉ xs.map (·.1)) (t : Fact) :
    (xs.foldl (fun t e => t.set e.1 (e.2.meet (t.get e.1))) t).get v = t.get v := by
  induction xs generalizing t with
  | nil => rfl
  | cons e xs ih =>
    rw [List.map_cons, List.mem_cons, not_or] at h
    rw [List.foldl_cons, ih h.2, get_set, if_neg (Ne.symm h.1)]

theorem get_foldl_meet {xs : List (VarId × Value)} {x : Value} (hnodup : (xs.map (·.1)).Nodup)
    (h : (v, x) ∈ xs) (t : Fact) :
    (xs.foldl (fun t e => t.set e.1 (e.2.meet (t.get e.1))) t).get v = x.meet (t.get v) := by
  induction xs generalizing t with
  | nil => cases h
  | cons e xs ih =>
    rw [List.map_cons, List.nodup_cons] at hnodup
    rw [List.foldl_cons]
    rcases List.mem_cons.mp h with heq | h
    · subst heq
      rw [get_foldl_meet_of_notMem hnodup.1, get_set, if_pos rfl]
    · have hne : e.1 ≠ v := fun heq => hnodup.1 (heq ▸ List.mem_map_of_mem h)
      rw [ih hnodup.2 h, get_set, if_neg hne]

/-- Entries may be taken in any order. -/
theorem get_foldl_meet_of_perm {xs : List (VarId × Value)} (hperm : xs.Perm f.toList) (t : Fact)
    (v : VarId) : (xs.foldl (fun t e => t.set e.1 (e.2.meet (t.get e.1))) t).get v =
      (f.get v).meet (t.get v) := by
  have hmem : ∀ e, e ∈ xs ↔ e ∈ f.toList := fun _ => hperm.mem_iff
  have hnodup : (xs.map (·.1)).Nodup := (hperm.map _).nodup_iff.mpr f.nodup_toList
  by_cases h : f.get v = .undef
  · have hnot : v ∉ xs.map (·.1) := by
      intro hv
      obtain ⟨⟨w, x⟩, he, rfl⟩ := List.mem_map.mp hv
      obtain ⟨hx, hne⟩ := mem_toList.mp ((hmem _).mp he)
      exact hne (hx ▸ h)
    rw [h, Value.undef_meet]
    exact get_foldl_meet_of_notMem hnot t
  · exact get_foldl_meet hnodup ((hmem _).mpr (mem_toList.mpr ⟨rfl, h⟩)) t

/-- Facts meet variable by variable. -/
theorem get_meet (f t : Fact) (v : VarId) : (f.meet t).get v = (f.get v).meet (t.get v) :=
  get_foldl_meet_of_perm (.refl _) t v

theorem mapped_of_meet (h : (f.meet g).get v ≠ .undef) : f.get v ≠ .undef ∨ g.get v ≠ .undef := by
  by_cases hf : f.get v = .undef
  · refine .inr fun hg => h ?_
    rw [get_meet, hf, hg, Value.meet_self]
  · exact .inl hf

theorem meet_self (f : Fact) : f.meet f = f := ext fun v => by
  rw [get_meet, Value.meet_self]

theorem meet_comm (f g : Fact) : f.meet g = g.meet f := ext fun v => by
  rw [get_meet, get_meet, Value.meet_comm]

theorem meet_assoc (f g t : Fact) : (f.meet g).meet t = f.meet (g.meet t) := ext fun v => by
  rw [get_meet, get_meet, get_meet, get_meet, Value.meet_assoc]

/-- A fact adds nothing to another if it adds nothing for any variable. -/
theorem meet_eq_right_iff : f.meet g = g ↔ ∀ v, (f.get v).meet (g.get v) = g.get v := by
  refine ⟨fun h v => ?_, fun h => ext fun v => ?_⟩
  · rw [← get_meet, h]
  · rw [get_meet]
    exact h v

theorem empty_meet (f : Fact) : empty.meet f = f := rfl

/-- A list that gives every variable the same value. -/
theorem get_ofList_const (vs : List VarId) (x : Value) (v : VarId) :
    (ofList (vs.map (·, x))).get v = if v ∈ vs then x else .undef := by
  have hfold : ∀ (vs : List VarId) (t : Fact),
      ((vs.map (·, x)).foldl (fun f e => f.set e.1 e.2) t).get v =
        if v ∈ vs then x else t.get v := by
    intro vs
    induction vs with
    | nil => intro t; rfl
    | cons w vs ih =>
      intro t
      rw [List.map_cons, List.foldl_cons, ih, get_set]
      by_cases hw : w = v
      · simp [hw]
      · simp [hw, Ne.symm hw]
  exact hfold vs empty

end Fact
end ProgramAnalysis
