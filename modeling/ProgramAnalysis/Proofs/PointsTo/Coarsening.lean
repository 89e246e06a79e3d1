import ProgramAnalysis.PointsTo.Result
import ProgramAnalysis.Proofs.PointsTo.LeastSolution

/-! Objects told apart by type only are an abstraction of objects told apart by allocation site. What
is known of types, said of every object of such a type, satisfies the constraints over sites; as the
solver ends in the least such facts, it knows no more of an object than what is known of its type. -/
namespace ProgramAnalysis

namespace PointsTo

/-! ### Forgetting sites -/

def AbstractObject.forget (a : AbstractObject) : AbstractObject := ⟨none, a.ty⟩

def Location.forget : Location → Location
  | .instanceField a f => .instanceField a.forget f
  | .elements a => .elements a.forget
  | .var v => .var v
  | .staticField f => .staticField f

/-- The facts of types, for objects of any site. -/
def Facts.refined (S : Facts) : Facts where
  pointsTo l := {a | a.forget ∈ S.pointsTo l.forget}
  edges := S.edges
  reachable := S.reachable

variable {p : Program} {e : Option MethodId} {S : Facts} {entry m : MethodId} {site : StmtRef}
  {result : Option VarId} {call : Call}

theorem Facts.Linked.refined (h : S.Linked p site result call m) :
    S.refined.Linked p site result call m where
  edge := h.edge
  reachable := h.reachable
  argument hb hax _ ha := h.argument hb hax ha
  returned hb hx hr _ ha := h.returned hb hx hr ha

/-- A statement reads nothing of an object but its type. -/
theorem Facts.StmtHolds.refined {st : Stmt} (h : S.StmtHolds ⟨p, .typeBased, e⟩ site st) :
    S.refined.StmtHolds ⟨p, .allocationSite, e⟩ site st := by
  cases st with
  | assign x rhs =>
    cases rhs with
    | new ty => exact h
    | var y => exact fun _ ha => h ha
    | field base f =>
      cases base with
      | none => exact fun _ ha => h ha
      | some y => exact fun o ho _ ha => h o.forget ho ha
    | element y i => exact fun o ho _ ha => h o.forget ho ha
    | _ => trivial
  | store target y =>
    cases target with
    | field base f =>
      cases base with
      | none => exact fun _ ha => h ha
      | some x => exact fun o ho _ ha => h o.forget ho ha
    | element x i => exact fun o ho _ ha => h o.forget ho ha
  | invoke result call =>
    obtain ⟨hstatic, hreceiver⟩ := h
    refine ⟨fun hk m hm => (hstatic hk m hm).refined, fun x hx o ho m hm => ?_⟩
    obtain ⟨hlinked, hthis⟩ := hreceiver x hx o.forget ho m hm
    exact ⟨hlinked.refined, hthis⟩
  | _ => trivial

theorem Facts.Satisfies.refined (h : S.Satisfies ⟨p, .typeBased, e⟩ entry) :
    S.refined.Satisfies ⟨p, .allocationSite, e⟩ entry :=
  ⟨h.entry, fun hsite hst => (h.stmt hsite hst).refined⟩

/-! ### Objects of the same type -/

end PointsTo

def Pointer.map (f : ObjId → ObjId) : Pointer → Pointer
  | .instanceField o g => .instanceField (f o) g
  | .elements o => .elements (f o)
  | .var v => .var v
  | .staticField g => .staticField g

namespace PointsTo

/-- The first object of `t` that has the type of the object of `r`. -/
def Result.sameType (r t : Result) (o : ObjId) : ObjId :=
  match r.objects[o.index]? with
  | some x => (t.objects.find? (·.ty == x.ty)).elim o (·.id)
  | none => o

/-- `t` says of the object of its type at least what `r` says of an object, and there is one. -/
structure Result.CoarsenedBy (r t : Result) : Prop where
  object : ∀ {o x}, r.objects[o.index]? = some x →
    ∃ y, t.objects[(r.sameType t o).index]? = some y ∧ y.ty = x.ty ∧
      ∀ {o' y'}, t.objects[o'.index]? = some y' → y'.ty = x.ty → o' = r.sameType t o
  pointsTo : ∀ {P o}, o ∈ r.pointsTo P → r.sameType t o ∈ t.pointsTo (P.map (r.sameType t))
  edges : ∀ {e}, e ∈ r.calls.edges → e ∈ t.calls.edges
  reachable : ∀ {m}, m ∈ r.calls.reachable → m ∈ t.calls.reachable
  mayAlias : ∀ {v w}, r.mayAlias v w = true → t.mayAlias v w = true

variable {s u : State} {o o' : ObjId} {a : AbstractObject} {P : Pointer} {l : Location}

/-- If some object of `u` has the type of the object, the first one that does is it. -/
theorem abstract?_sameType (hu : u.heap.Valid .typeBased p)
    (ha : s.heap.abstract? .allocationSite o = some a)
    (ho' : u.heap.abstract? .typeBased o' = some a.forget) :
    u.heap.abstract? .typeBased (s.result.sameType u.result o) = some a.forget := by
  obtain ⟨x, hx, hty⟩ := Heap.abstract?_ty ha
  obtain ⟨y, hy, hty'⟩ := Heap.abstract?_ty ho'
  have hobject : s.result.objects[o.index]? = some x := hx
  unfold Result.sameType
  rw [hobject]
  dsimp only
  cases hfind : u.result.objects.find? (·.ty == x.ty) with
  | none =>
    have hne := Array.find?_eq_none.mp hfind y (Array.mem_of_getElem? hy)
    rw [hty, hty'] at hne
    exact absurd (beq_self_eq_true a.ty) hne
  | some z =>
    obtain ⟨i, hi⟩ := Array.mem_iff_getElem?.mp (Array.mem_of_find?_eq_some hfind)
    have hz : u.heap.object? ⟨i⟩ = some z := hi
    have hbeq := Array.find?_some hfind
    have hzty : z.ty = a.ty := (eq_of_beq hbeq).trans hty
    show u.heap.abstract? .typeBased z.id = _
    rw [hu.id hz, Heap.abstract?_of_object? hz]
    simp only [abstractObject, AbstractObject.forget, hzty]

/-- A pointer is mapped to the one at its location without sites, if there is one. -/
theorem location?_map (hu : u.heap.Valid .typeBased p)
    (hl : s.heap.location? .allocationSite P = some l)
    (hP' : ∃ P', u.heap.location? .typeBased P' = some l.forget) :
    u.heap.location? .typeBased (P.map (s.result.sameType u.result)) = some l.forget := by
  obtain ⟨P', hP'⟩ := hP'
  have hbase : ∀ {o : ObjId} {a : AbstractObject}, s.heap.abstract? .allocationSite o = some a →
      (∃ o', u.heap.abstract? .typeBased o' = some a.forget) →
      u.heap.abstract? .typeBased (s.result.sameType u.result o) = some a.forget :=
    fun ha ⟨_, ho'⟩ => abstract?_sameType hu ha ho'
  cases P with
  | var v =>
    cases hl
    rfl
  | staticField f =>
    cases hl
    rfl
  | instanceField o f =>
    obtain ⟨a, ha, rfl⟩ := Option.map_eq_some_iff.mp hl
    cases P' <;>
      simp only [Heap.location?, Location.forget, Option.map_eq_some_iff, Option.some.injEq,
        Location.instanceField.injEq, reduceCtorEq, and_false, exists_false] at hP'
    obtain ⟨_, ho', rfl, rfl⟩ := hP'
    exact Option.map_eq_some_iff.mpr ⟨a.forget, hbase ha ⟨_, ho'⟩, rfl⟩
  | elements o =>
    obtain ⟨a, ha, rfl⟩ := Option.map_eq_some_iff.mp hl
    cases P' <;>
      simp only [Heap.location?, Location.forget, Option.map_eq_some_iff, Option.some.injEq,
        Location.elements.injEq, reduceCtorEq, and_false, exists_false] at hP'
    obtain ⟨_, ho', rfl⟩ := hP'
    exact Option.map_eq_some_iff.mpr ⟨a.forget, hbase ha ⟨_, ho'⟩, rfl⟩

/-! ### The two runs -/

/-- The statement that allocates the object is reachable in the other run too, where it allocates an
object of its type. -/
theorem Finished.exists_sameType (hu : Finished ⟨p, .typeBased, e⟩ .all u)
    (hs : Inv ⟨p, .allocationSite, e⟩ (u.facts .typeBased).refined s)
    (ha : s.heap.abstract? .allocationSite o = some a) :
    ∃ o', u.heap.abstract? .typeBased o' = some a.forget := by
  obtain ⟨x, hx, rfl⟩ := Option.map_eq_some_iff.mp ha
  obtain ⟨v, hst⟩ := hs.heap.site hx
  have hmem : abstractObject .typeBased x.site x.ty ∈ (u.facts .typeBased).pointsTo (.var v) :=
    hu.stmtHolds (hs.allocated hx) hst
  obtain ⟨_, o', _, ho', _⟩ := hmem
  exact ⟨o', ho'⟩

theorem Finished.coarsenedBy (hu : Finished ⟨p, .typeBased, e⟩ .all u)
    (hs : Inv ⟨p, .allocationSite, e⟩ (u.facts .typeBased).refined s) :
    s.result.CoarsenedBy u.result := by
  have hvalid : u.heap.Valid .typeBased p := hu.inv.heap
  have hle := hs.facts_le
  have hpointsTo : ∀ {P o}, o ∈ s.result.pointsTo P →
      s.result.sameType u.result o ∈ u.result.pointsTo (P.map (s.result.sameType u.result)) := by
    intro P o ho
    obtain ⟨⟨l, hl⟩, a, ha⟩ := hs.faithful.named ho
    obtain ⟨P', o', hP', ho', hmem⟩ := hle.1 l ⟨P, o, hl, ha, ho⟩
    have himage := abstract?_sameType hvalid ha ho'
    have hmap := location?_map hvalid hl ⟨P', hP'⟩
    rw [hvalid.injective himage ho', hvalid.location?_injective hmap hP']
    exact hmem
  refine ⟨fun {o x} hx => ?_, hpointsTo, fun he => hle.2.1 he, fun hm => hle.2.2 hm,
    fun {v w} halias => ?_⟩
  · have ha : s.heap.abstract? .allocationSite o = some ⟨some x.site, x.ty⟩ :=
      Heap.abstract?_of_object? hx
    obtain ⟨o', ho'⟩ := hu.exists_sameType hs ha
    have himage := abstract?_sameType hvalid ha ho'
    obtain ⟨y, hy, hty⟩ := Heap.abstract?_ty himage
    refine ⟨y, hy, hty, fun {o'' y'} hy' hty' => hvalid.injective ?_ himage⟩
    have habs : u.heap.abstract? .typeBased o'' = some (abstractObject .typeBased y'.site y'.ty) :=
      Heap.abstract?_of_object? hy'
    rw [habs, hty']
    rfl
  · obtain ⟨o, hv, hw⟩ := HandleSet.intersects_iff.mp halias
    exact HandleSet.intersects_iff.mpr ⟨_, hpointsTo hv, hpointsTo hw⟩

/-- The analysis with objects for types finds whatever the one with objects for allocation sites
finds: points-to sets, call edges, reachable methods and aliases. -/
theorem analyze_coarsened (hp : p.Proper) (hentry : e.or p.entry = some entry)
    (hlt : entry.index < p.methods.size) :
    ∃ r t, (analyze ⟨p, .allocationSite, e⟩).result = .ok r ∧
      (analyze ⟨p, .typeBased, e⟩).result = .ok t ∧ r.CoarsenedBy t := by
  obtain ⟨u, hu, hfin, hreach, -⟩ := solve_finished (q := ⟨p, .typeBased, e⟩) hp hentry hlt
  obtain ⟨s, hs, -, -, hleast⟩ := solve_finished (q := ⟨p, .allocationSite, e⟩) hp hentry hlt
  have hinv := hleast _ (hfin.satisfies hreach).refined
  exact ⟨s.result, u.result, Traced.bind_ok_iff.mpr ⟨s, hs, rfl⟩,
    Traced.bind_ok_iff.mpr ⟨u, hu, rfl⟩, hfin.coarsenedBy hinv⟩

theorem analyze_coarsened_sample :
    ∃ r t, (analyze ⟨.sample, .allocationSite, none⟩).result = .ok r ∧
      (analyze ⟨.sample, .typeBased, none⟩).result = .ok t ∧ r.CoarsenedBy t :=
  analyze_coarsened Program.proper_sample rfl (by decide)

end PointsTo
end ProgramAnalysis
