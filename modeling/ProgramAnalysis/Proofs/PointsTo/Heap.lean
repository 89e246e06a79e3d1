import ProgramAnalysis.Proofs.PointsTo.Constraints

/-! Heaps that hold one object for each abstract object, each allocated by a statement of the
program. A heap only grows, so what it says about an object stays true. -/
namespace ProgramAnalysis.Heap

open PointsTo

variable {model : HeapModel} {p : Program} {h h' : Heap} {o : ObjId} {x : HeapObject}
  {P : Pointer} {site : StmtRef} {ty : Ty}

structure Valid (model : HeapModel) (p : Program) (h : Heap) : Prop where
  id : ∀ {o x}, h.object? o = some x → x.id = o
  injective : ∀ {o o' a}, h.abstract? model o = some a → h.abstract? model o' = some a → o = o'
  site : ∀ {o x}, h.object? o = some x → ∃ v, p.stmt? x.site = some (.assign v (.new x.ty))

instance : LE Heap where
  le h h' := ∀ {o x}, h.object? o = some x → h'.object? o = some x

theorem le_refl (h : Heap) : h ≤ h := fun hx => hx

theorem le_trans {h'' : Heap} (hle : h ≤ h') (hle' : h' ≤ h'') : h ≤ h'' := fun hx => hle' (hle hx)

theorem valid_empty : Valid model p .empty where
  id hx := by simp [object?, empty] at hx
  injective ha := by simp [abstract?, object?, empty] at ha
  site hx := by simp [object?, empty] at hx

theorem abstract?_of_object? (hx : h.object? o = some x) :
    h.abstract? model o = some (abstractObject model x.site x.ty) := by
  simp [abstract?, hx]

theorem abstract?_mono {a : AbstractObject} (hle : h ≤ h') (ha : h.abstract? model o = some a) :
    h'.abstract? model o = some a := by
  obtain ⟨x, hx, rfl⟩ := Option.map_eq_some_iff.mp ha
  exact abstract?_of_object? (hle hx)

theorem location?_mono {l : Location} (hle : h ≤ h') (hl : h.location? model P = some l) :
    h'.location? model P = some l := by
  cases P with
  | var v => exact hl
  | staticField f => exact hl
  | instanceField o f =>
    obtain ⟨a, ha, rfl⟩ := Option.map_eq_some_iff.mp hl
    exact Option.map_eq_some_iff.mpr ⟨a, abstract?_mono hle ha, rfl⟩
  | elements o =>
    obtain ⟨a, ha, rfl⟩ := Option.map_eq_some_iff.mp hl
    exact Option.map_eq_some_iff.mpr ⟨a, abstract?_mono hle ha, rfl⟩

/-- Pointers that exist at the same location are the same. -/
theorem Valid.location?_injective {P Q : Pointer} {l : Location} (hv : h.Valid model p)
    (hP : h.location? model P = some l) (hQ : h.location? model Q = some l) : P = Q := by
  cases P <;> cases Q <;>
    simp only [location?, Option.map_eq_some_iff, Option.some.injEq] at hP hQ
  case var.var v w => rw [← hP] at hQ; cases hQ; rfl
  case staticField.staticField f f' => rw [← hP] at hQ; cases hQ; rfl
  case instanceField.instanceField o f o' f' =>
    obtain ⟨a, ha, rfl⟩ := hP
    obtain ⟨a', ha', he⟩ := hQ
    cases he
    rw [hv.injective ha ha']
  case elements.elements o o' =>
    obtain ⟨a, ha, rfl⟩ := hP
    obtain ⟨a', ha', he⟩ := hQ
    cases he
    rw [hv.injective ha ha']
  all_goals grind

/-- The type of an abstract object is that of the object. -/
theorem abstract?_ty {a : AbstractObject} (ha : h.abstract? model o = some a) :
    ∃ x, h.object? o = some x ∧ x.ty = a.ty := by
  obtain ⟨x, hx, rfl⟩ := Option.map_eq_some_iff.mp ha
  refine ⟨x, hx, ?_⟩
  cases model <;> rfl

/-! ### Allocation -/

theorem object?_push {o' : ObjId} {y : HeapObject} :
    Heap.object? ⟨h.objects.push x⟩ o' = some y ↔
      h.object? o' = some y ∨ o' = ⟨h.objects.size⟩ ∧ y = x := by
  obtain ⟨i⟩ := o'
  simp only [object?, Array.getElem?_push, ObjId.mk.injEq]
  by_cases hi : i = h.objects.size
  · subst hi
    simp [eq_comm]
  · simp [hi]

/-- The heap identifies allocations as `abstractObject` does: a site allocates one type. -/
theorem Valid.identifies_iff (hv : h.Valid model p) {v : VarId} (hx : h.object? o = some x)
    (hs : p.stmt? site = some (.assign v (.new ty))) : model.identifies x site ty = true ↔
      abstractObject model x.site x.ty = abstractObject model site ty := by
  cases model with
  | allocationSite =>
    simp only [HeapModel.identifies, abstractObject, beq_iff_eq, AbstractObject.mk.injEq,
      Option.some.injEq]
    refine ⟨fun he => ⟨he, ?_⟩, fun he => he.1⟩
    obtain ⟨w, hw⟩ := hv.site hx
    rw [he, hs] at hw
    cases hw
    rfl
  | typeBased => simp [HeapModel.identifies, abstractObject]

/-- What an allocation returns: an object for the site and type, in a heap that holds it. -/
structure Allocated (model : HeapModel) (p : Program) (h : Heap) (site : StmtRef) (ty : Ty)
    (o : ObjId) (h' : Heap) : Prop where
  valid : h'.Valid model p
  le : h ≤ h'
  abstract : h'.abstract? model o = some (abstractObject model site ty)
  sites : ∀ {o' x}, h'.object? o' = some x → h.object? o' = some x ∨ x.site = site

theorem Valid.allocate (hv : h.Valid model p) {v : VarId}
    (hs : p.stmt? site = some (.assign v (.new ty))) :
    h.Allocated model p site ty (h.allocate model site ty).1 (h.allocate model site ty).2 := by
  unfold Heap.allocate
  cases hf : h.objects.find? fun o => model.identifies o site ty with
  | some x =>
    obtain ⟨i, hi⟩ := Array.mem_iff_getElem?.mp (Array.mem_of_find?_eq_some hf)
    have hx : h.object? ⟨i⟩ = some x := hi
    refine ⟨hv, le_refl h, ?_, .inl⟩
    have hid := Array.find?_some hf
    show h.abstract? model x.id = _
    rw [hv.id hx, abstract?_of_object? hx, (hv.identifies_iff hx hs).mp hid]
  | none =>
    have hnew : ∀ {o}, h.abstract? model o ≠ some (abstractObject model site ty) := by
      intro o ha
      obtain ⟨x, hx, he⟩ := Option.map_eq_some_iff.mp ha
      have hid := (hv.identifies_iff hx hs).mpr he
      exact Array.find?_eq_none.mp hf x (Array.mem_of_getElem? hx) hid
    have habs : ∀ {o a}, (h.create site ty).2.abstract? model o = some a →
        h.abstract? model o = some a ∨
          o = ⟨h.objects.size⟩ ∧ a = abstractObject model site ty := by
      intro o a ha
      obtain ⟨x, hx, rfl⟩ := Option.map_eq_some_iff.mp ha
      rcases object?_push.mp hx with hx | ⟨rfl, rfl⟩
      · exact .inl (abstract?_of_object? hx)
      · exact .inr ⟨rfl, rfl⟩
    have hlast : (h.create site ty).2.object? ⟨h.objects.size⟩ = some ⟨⟨h.objects.size⟩, site, ty⟩ :=
      object?_push.mpr (.inr ⟨rfl, rfl⟩)
    refine ⟨⟨fun {o x} hx => ?_, fun {o o' a} ha ha' => ?_, fun {o x} hx => ?_⟩,
      fun hx => object?_push.mpr (.inl hx), abstract?_of_object? hlast,
      fun hx => (object?_push.mp hx).imp_right fun h => by rw [h.2]⟩
    · rcases object?_push.mp hx with hx | ⟨rfl, rfl⟩
      · exact hv.id hx
      · rfl
    · rcases habs ha with ha | ⟨rfl, rfl⟩
      · rcases habs ha' with ha' | ⟨rfl, rfl⟩
        · exact hv.injective ha ha'
        · exact absurd ha hnew
      · rcases habs ha' with ha' | ⟨rfl, _⟩
        · exact absurd ha' hnew
        · rfl
    · rcases object?_push.mp hx with hx | ⟨rfl, rfl⟩
      · exact hv.site hx
      · exact ⟨v, hs⟩

end ProgramAnalysis.Heap
