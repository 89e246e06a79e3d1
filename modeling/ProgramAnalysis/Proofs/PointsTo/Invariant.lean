import ProgramAnalysis.Proofs.PointsTo.Flow
import ProgramAnalysis.Proofs.PointsTo.Heap

/-! What every state of the solver keeps, relative to facts `S` that satisfy the constraints:
whatever the state holds or has on its way is among `S`, and what flows has arrived or is on its
way. The elementary changes of a state (a flow, an object sent, an allocation, a method reached, a
call edge) keep this and only add to the state. -/
namespace ProgramAnalysis

/-- The field that a statement accesses. -/
def Stmt.field? : Stmt → Option FieldId
  | .assign _ (.field _ f) | .store (.field _ f) _ => some f
  | _ => none

def Program.MentionsField (p : Program) (f : FieldId) : Prop :=
  ∃ site s, p.stmt? site = some s ∧ s.field? = some f

namespace PointsTo

variable (q : Problem) (S : Facts)

/-- If the pointer is a variable, its method exists and is reachable. -/
def Live (P : Pointer) : Prop :=
  ∀ v, P = .var v → ∃ m, q.program.Owns m v ∧ m ∈ S.reachable ∧ m.index < q.program.methods.size

/-- What the solver relies on: its lookups succeed, and the variables that calls bind are live. -/
structure Serves : Prop where
  accepted : q.program.Accepted
  classes : q.program.ClassesInRange
  this : ∀ {m b v}, m ∈ S.reachable → q.program.body? m = some b → b.this = some v →
    Live q S (.var v)
  params : ∀ {m b v}, m ∈ S.reachable → q.program.body? m = some b → v ∈ b.params →
    Live q S (.var v)

/-- A pointer that the program and the heap can name. -/
def Named (h : Heap) : Pointer → Prop
  | .var v => v.index < q.program.vars.size
  | .staticField f => q.program.MentionsField f
  | .instanceField o f => o.index < h.size ∧ q.program.MentionsField f
  | .elements o => o.index < h.size

/-- The facts `S` have `o` at `P`. -/
structure Justified (h : Heap) (P : Pointer) (o : ObjId) : Prop where
  live : Live q S P
  fact : ∃ l a, h.location? q.model P = some l ∧ h.abstract? q.model o = some a ∧
    a ∈ S.pointsTo l

/-- The facts `S` let everything flow from `P` to `Q`. -/
structure Admits (h : Heap) (P Q : Pointer) : Prop where
  source : Named q h P
  target : Named q h Q
  live : Live q S Q
  subset : ∀ {l k}, h.location? q.model P = some l → h.location? q.model Q = some k →
    S.pointsTo l ⊆ S.pointsTo k

/-- The facts `S` have the call edge, and it stems from a call of the program. -/
def AdmitsEdge (e : CallEdge) : Prop :=
  ∃ result call, q.program.stmt? e.site = some (.invoke result call) ∧ call.kind = e.kind ∧
    S.Linked q.program e.site result call e.callee

structure Inv (s : State) : Prop where
  wellFormed : s.WellFormed
  heap : s.heap.Valid q.model q.program
  allocated : ∀ {o x}, s.heap.object? o = some x → x.site.method ∈ S.reachable
  named : ∀ {n P}, s.graph.pointer? n = some P → Named q s.heap P
  carried : ∀ {P Q o}, s.graph.Flows P Q → s.graph.Holds P o → s.Reaches Q o
  justified : ∀ {P o}, s.Reaches P o → Justified q S s.heap P o
  admitted : ∀ {P Q}, s.graph.Flows P Q → Admits q S s.heap P Q
  edge : ∀ {e}, e ∈ s.calls.edges → AdmitsEdge q S e
  reachable : ∀ {m}, m ∈ s.calls.reachable → m ∈ S.reachable ∧ m.index < q.program.methods.size
  nodup : s.calls.reachable.toList.Nodup
  pending : s.pending <:+ s.calls.reachable.toList

/-- What `s` says, `t` says. -/
structure Grows (s t : State) : Prop where
  heap : s.heap ≤ t.heap
  node : ∀ {n P}, s.graph.pointer? n = some P → t.graph.pointer? n = some P
  holds : ∀ {P o}, s.graph.Holds P o → t.graph.Holds P o
  flows : ∀ {P Q}, s.graph.Flows P Q → t.graph.Flows P Q
  reaches : ∀ {P o}, s.Reaches P o → t.Reaches P o
  reachable : ∀ {m}, m ∈ s.calls.reachable → m ∈ t.calls.reachable
  edges : ∀ {e}, e ∈ s.calls.edges → e ∈ t.calls.edges

/-- `t` is `s` with more to do: nothing has arrived, and the methods reached since are pending. -/
structure Extends (s t : State) : Prop where
  heap : s.heap ≤ t.heap
  node : ∀ {n P}, s.graph.pointer? n = some P → t.graph.pointer? n = some P
  holds : ∀ {P o}, t.graph.Holds P o ↔ s.graph.Holds P o
  flows : ∀ {P Q}, s.graph.Flows P Q → t.graph.Flows P Q
  awaits : ∀ {P o}, s.Awaits P o → t.Awaits P o
  reached : ∃ ms, t.calls.reachable.toList = s.calls.reachable.toList ++ ms ∧
    t.pending = s.pending ++ ms
  edges : ∀ {e}, e ∈ s.calls.edges → e ∈ t.calls.edges

variable {q S} {s t u : State} {P Q : Pointer} {o : ObjId} {h h' : Heap}

/-! ### Variables that calls bind -/

theorem Live.lt {v : VarId} (h : Live q S (.var v)) : v.index < q.program.vars.size := by
  obtain ⟨_, howns, _⟩ := h v rfl
  exact howns.lt

theorem Live.of_owns {m : MethodId} {v : VarId} (h : q.program.Owns m v)
    (hm : m ∈ S.reachable) (hlt : m.index < q.program.methods.size) : Live q S (.var v) := by
  intro w hw
  cases hw
  exact ⟨m, h, hm, hlt⟩

theorem Serves.of_proper (hp : q.program.Proper) : Serves q S where
  accepted := hp.accepted
  classes := hp.classes
  this hm hb hv := Live.of_owns (hp.this _ _ _ hb hv) hm (Program.lt_of_body? hb)
  params hm hb hv := Live.of_owns (hp.params _ _ hb _ hv) hm (Program.lt_of_body? hb)

/-! ### Orders -/

theorem Extends.refl (s : State) : Extends s s :=
  ⟨s.heap.le_refl, id, Iff.rfl, id, id, ⟨[], by simp, by simp⟩, id⟩

theorem Extends.trans (hst : Extends s t) (htu : Extends t u) : Extends s u where
  heap := Heap.le_trans hst.heap htu.heap
  node := htu.node ∘ hst.node
  holds := htu.holds.trans hst.holds
  flows := htu.flows ∘ hst.flows
  awaits := htu.awaits ∘ hst.awaits
  reached := by
    obtain ⟨ms, hr, hp⟩ := hst.reached
    obtain ⟨ms', hr', hp'⟩ := htu.reached
    exact ⟨ms ++ ms', by rw [hr', hr, List.append_assoc], by rw [hp', hp, List.append_assoc]⟩
  edges := htu.edges ∘ hst.edges

theorem Extends.reachable {m : MethodId} (h : Extends s t) (hm : m ∈ s.calls.reachable) :
    m ∈ t.calls.reachable := by
  obtain ⟨ms, hr, _⟩ := h.reached
  rw [← Array.mem_toList_iff, hr]
  exact List.mem_append_left _ (Array.mem_toList_iff.mpr hm)

theorem Extends.grows (h : Extends s t) : Grows s t where
  heap := h.heap
  node := h.node
  holds := h.holds.mpr
  flows := h.flows
  reaches := Or.imp h.holds.mpr h.awaits
  reachable := h.reachable
  edges := h.edges

theorem Grows.trans (hst : Grows s t) (htu : Grows t u) : Grows s u :=
  ⟨Heap.le_trans hst.heap htu.heap, htu.node ∘ hst.node, htu.holds ∘ hst.holds,
    htu.flows ∘ hst.flows, htu.reaches ∘ hst.reaches, htu.reachable ∘ hst.reachable,
    htu.edges ∘ hst.edges⟩

/-! ### What the heap names -/

theorem Named.mono (hle : h ≤ h') (hn : Named q h P) : Named q h' P := by
  have hsize : ∀ {o : ObjId}, o.index < h.size → o.index < h'.size := fun {o} ho =>
    (Array.getElem?_eq_some_iff.mp (hle (Array.getElem?_eq_getElem ho))).1
  cases P with
  | var v => exact hn
  | staticField f => exact hn
  | instanceField o f => exact ⟨hsize hn.1, hn.2⟩
  | elements o => exact hsize hn

theorem Named.location? (hn : Named q h P) : ∃ l, h.location? q.model P = some l := by
  have habs : ∀ {o : ObjId}, o.index < h.size → ∃ a, h.abstract? q.model o = some a :=
    fun ho => ⟨_, Heap.abstract?_of_object? (Array.getElem?_eq_getElem ho)⟩
  cases P with
  | var v => exact ⟨_, rfl⟩
  | staticField f => exact ⟨_, rfl⟩
  | instanceField o f =>
    obtain ⟨a, ha⟩ := habs hn.1
    exact ⟨_, Option.map_eq_some_iff.mpr ⟨a, ha, rfl⟩⟩
  | elements o =>
    obtain ⟨a, ha⟩ := habs hn
    exact ⟨_, Option.map_eq_some_iff.mpr ⟨a, ha, rfl⟩⟩

theorem Justified.mono (hle : h ≤ h') (hj : Justified q S h P o) : Justified q S h' P o := by
  obtain ⟨l, a, hl, ha, hmem⟩ := hj.fact
  exact ⟨hj.live, l, a, Heap.location?_mono hle hl, Heap.abstract?_mono hle ha, hmem⟩

theorem Admits.mono (hle : h ≤ h') (hf : Admits q S h P Q) : Admits q S h' P Q where
  source := hf.source.mono hle
  target := hf.target.mono hle
  live := hf.live
  subset {l k} hl hk := by
    obtain ⟨l₀, hl₀⟩ := hf.source.location?
    obtain ⟨k₀, hk₀⟩ := hf.target.location?
    have hl' := Heap.location?_mono hle hl₀
    have hk' := Heap.location?_mono hle hk₀
    rw [hl] at hl'
    rw [hk] at hk'
    cases hl'
    cases hk'
    exact hf.subset hl₀ hk₀

theorem Admits.justified (hf : Admits q S h P Q) (hj : Justified q S h P o) :
    Justified q S h Q o := by
  obtain ⟨l, a, hl, ha, hmem⟩ := hj.fact
  obtain ⟨k, hk⟩ := hf.target.location?
  exact ⟨hf.live, k, a, hk, ha, hf.subset hl hk hmem⟩

/-! ### Elementary changes -/

theorem Extends.flow (hs : s.WellFormed) (P Q : Pointer) : Extends s (s.flow P Q) where
  heap := by rw [State.flow_heap]; exact s.heap.le_refl
  node := hs.node_flow
  holds := hs.holds_flow
  flows := fun h => hs.flows_flow.mpr (.inl h)
  awaits := fun h => hs.awaits_flow.mpr (.inl h)
  reached := ⟨[], by simp, by simp⟩
  edges := fun h => by rw [State.flow_calls]; exact h

theorem Inv.flow (hs : Inv q S s) (hf : Admits q S s.heap P Q) : Inv q S (s.flow P Q) where
  wellFormed := hs.wellFormed.flow P Q
  heap := by rw [State.flow_heap]; exact hs.heap
  allocated hx := by rw [State.flow_heap] at hx; exact hs.allocated hx
  named hn := by
    rw [State.flow_heap]
    rcases hs.wellFormed.pointer?_flow hn with hn | rfl | rfl
    · exact hs.named hn
    · exact hf.source
    · exact hf.target
  carried {A B o} hflow hold := by
    have hext := Extends.flow hs.wellFormed P Q
    have hold' := hext.holds.mp hold
    rcases hs.wellFormed.flows_flow.mp hflow with hflow | ⟨rfl, rfl⟩
    · exact hext.grows.reaches (hs.carried hflow hold')
    · by_cases hnew : s.graph.Flows A B
      · exact hext.grows.reaches (hs.carried hnew hold')
      · exact .inr (hs.wellFormed.awaits_flow.mpr (.inr ⟨rfl, hold', hnew⟩))
  justified {A o} hr := by
    rw [State.flow_heap]
    rcases hr with hold | hwait
    · exact hs.justified (.inl (hs.wellFormed.holds_flow.mp hold))
    · rcases hs.wellFormed.awaits_flow.mp hwait with hwait | ⟨rfl, hold, _⟩
      · exact hs.justified (.inr hwait)
      · exact hf.justified (hs.justified (.inl hold))
  admitted hflow := by
    rw [State.flow_heap]
    rcases hs.wellFormed.flows_flow.mp hflow with hflow | ⟨rfl, rfl⟩
    · exact hs.admitted hflow
    · exact hf
  edge he := by rw [State.flow_calls] at he; exact hs.edge he
  reachable hm := by rw [State.flow_calls] at hm; exact hs.reachable hm
  nodup := by rw [State.flow_calls]; exact hs.nodup
  pending := by rw [State.flow_calls, State.flow_pending]; exact hs.pending

theorem Extends.send (hs : s.WellFormed) (P : Pointer) (objects : ObjSet) :
    Extends s (s.send P objects) where
  heap := s.heap.le_refl
  node := fun h => (hs.interned P).pointer?_iff.mpr (.inl h)
  holds := hs.holds_send
  flows := hs.flows_send.mpr
  awaits := fun h => hs.awaits_send.mpr (.inl h)
  reached := ⟨[], by simp, by simp⟩
  edges := id

theorem Inv.send (hs : Inv q S s) (hn : Named q s.heap P) (hj : Justified q S s.heap P o) :
    Inv q S (s.send P (.singleton o)) where
  wellFormed := hs.wellFormed.send P _
  heap := hs.heap
  allocated := hs.allocated
  named hp := by
    rcases (hs.wellFormed.interned P).pointer?_iff.mp hp with hp | ⟨_, rfl⟩
    · exact hs.named hp
    · exact hn
  carried hflow hold :=
    (Extends.send hs.wellFormed P _).grows.reaches
      (hs.carried (hs.wellFormed.flows_send.mp hflow) (hs.wellFormed.holds_send.mp hold))
  justified {A o'} hr := by
    rcases hr with hold | hwait
    · exact hs.justified (.inl (hs.wellFormed.holds_send.mp hold))
    · rcases hs.wellFormed.awaits_send.mp hwait with hwait | ⟨rfl, ho⟩
      · exact hs.justified (.inr hwait)
      · rw [HandleSet.mem_singleton.mp ho]
        exact hj
  admitted hflow := hs.admitted (hs.wellFormed.flows_send.mp hflow)
  edge := hs.edge
  reachable := hs.reachable
  nodup := hs.nodup
  pending := hs.pending

theorem State.reaches_send (hs : s.WellFormed) : (s.send P (.singleton o)).Reaches P o :=
  .inr (hs.awaits_send.mpr (.inr ⟨rfl, HandleSet.mem_singleton.mpr rfl⟩))

theorem Inv.withHeap (hs : Inv q S s) (hv : h.Valid q.model q.program) (hle : s.heap ≤ h)
    (hallocated : ∀ {o x}, h.object? o = some x → x.site.method ∈ S.reachable) :
    Inv q S { s with heap := h } where
  wellFormed := ⟨hs.wellFormed.graph, hs.wellFormed.work_lt⟩
  heap := hv
  allocated := hallocated
  named hn := (hs.named hn).mono hle
  carried := hs.carried
  justified hr := (hs.justified hr).mono hle
  admitted hf := (hs.admitted hf).mono hle
  edge := hs.edge
  reachable := hs.reachable
  nodup := hs.nodup
  pending := hs.pending

theorem Extends.withHeap (hle : s.heap ≤ h) : Extends s { s with heap := h } :=
  ⟨hle, id, Iff.rfl, id, id, ⟨[], by simp, by simp⟩, id⟩

end PointsTo
end ProgramAnalysis
