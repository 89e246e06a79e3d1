import Mathlib.Data.List.ProdSigma
import Mathlib.Tactic.GCongr
import Mathlib.Tactic.Ring
import ProgramAnalysis.Proofs.PointsTo.Cost

/-! How large a state of the solver can get. Objects stem from different statements, nodes are for
pointers that the program and the heap can name, edges join nodes, and objects at nodes are on the
heap: with `n` variables and statements there are at most `n ^ 2` nodes, `n ^ 4` edges and `n ^ 3`
objects at nodes. -/
namespace ProgramAnalysis

namespace PointsTo

variable {p : Program} {q : Problem} {S : Facts} {s : State}

/-! ### What a program names -/

/-- The places of all statements. -/
def sites (p : Program) : List StmtRef :=
  p.methodIds.flatMap fun m => (List.range (bodySize p m)).map (StmtRef.mk m)

def fields (p : Program) : List FieldId :=
  (sites p).filterMap fun site => (p.stmt? site).bind Stmt.field?

theorem length_sites (p : Program) : (sites p).length = statementCount p := by
  unfold sites
  rw [List.length_flatMap]
  simp only [List.length_map, List.length_range]
  rfl

theorem length_fields_le (p : Program) : (fields p).length ≤ statementCount p :=
  length_sites p ▸ List.length_filterMap_le _ _

theorem mem_methodIds {m : MethodId} (h : m.index < p.methods.size) : m ∈ p.methodIds :=
  List.mem_map.mpr ⟨m.index, List.mem_range.mpr h, rfl⟩

theorem mem_sites {site : StmtRef} {st : Stmt} (h : p.stmt? site = some st) : site ∈ sites p := by
  obtain ⟨b, hb, hi⟩ := Program.stmt?_eq_some_iff.mp h
  have hsize : bodySize p site.method = b.size := by
    show (p.body? site.method).elim 0 Body.size = b.size
    rw [hb]
    rfl
  refine List.mem_flatMap.mpr ⟨site.method, mem_methodIds (Program.lt_of_body? hb), ?_⟩
  refine List.mem_map.mpr ⟨site.index, List.mem_range.mpr ?_, rfl⟩
  rw [hsize]
  exact (Array.getElem?_eq_some_iff.mp hi).1

theorem mem_fields {f : FieldId} (h : p.MentionsField f) : f ∈ fields p := by
  obtain ⟨site, st, hst, hf⟩ := h
  refine List.mem_filterMap.mpr ⟨site, mem_sites hst, ?_⟩
  rw [hst]
  exact hf

/-- The pointers that a program and a heap of `n` objects can name. -/
def pointers (p : Program) (n : Nat) : List Pointer :=
  p.varIds.map .var ++ (fields p).map .staticField ++
    ((List.range n) ×ˢ (fields p)).map (fun e => .instanceField ⟨e.1⟩ e.2) ++
    (List.range n).map fun o => .elements ⟨o⟩

theorem length_pointers (p : Program) (n : Nat) : (pointers p n).length =
    p.vars.size + (fields p).length + n * (fields p).length + n := by
  simp [pointers, Program.varIds, List.length_product, Nat.add_assoc]

theorem Named.mem_pointers {h : Heap} {P : Pointer} (hn : Named q h P) :
    P ∈ pointers q.program h.size := by
  simp only [pointers, List.mem_append, List.mem_map, Program.varIds]
  cases P with
  | var v => exact .inl (.inl (.inl ⟨v, ⟨v.index, List.mem_range.mpr hn, rfl⟩, rfl⟩))
  | staticField f => exact .inl (.inl (.inr ⟨f, mem_fields hn, rfl⟩))
  | instanceField o f =>
    refine .inl (.inr ⟨(o.index, f), ?_, rfl⟩)
    exact List.mem_product.mpr ⟨List.mem_range.mpr hn.1, mem_fields hn.2⟩
  | elements o => exact .inr ⟨o.index, List.mem_range.mpr hn, rfl⟩

/-! ### Sizes -/

/-- One more than the variables and statements of a program. -/
def extent (p : Program) : Nat := p.vars.size + statementCount p + 1

theorem heap_size_le {model : HeapModel} {h : Heap} (hv : h.Valid model p) :
    h.size ≤ statementCount p := by
  rw [← length_sites]
  refine le_length_of_unshared (R := fun i site => ∃ x, h.object? ⟨i⟩ = some x ∧ x.site = site)
    (fun i hi => ?_) ?_
  · have hx : h.object? ⟨i⟩ = some h.objects[i] := Array.getElem?_eq_getElem hi
    obtain ⟨v, hs⟩ := hv.site hx
    exact ⟨_, mem_sites hs, _, hx, rfl⟩
  · intro i j site hi hj
    obtain ⟨x, hx, hsite⟩ := hi
    obtain ⟨y, hy, rfl⟩ := hj
    obtain ⟨v, hv'⟩ := hv.site hx
    obtain ⟨w, hw⟩ := hv.site hy
    rw [hsite, hw] at hv'
    have hty : y.ty = x.ty := by
      simp only [Option.some.injEq, Stmt.assign.injEq, Expr.new.injEq] at hv'
      exact hv'.2
    have hi : h.abstract? model ⟨i⟩ = some _ := Heap.abstract?_of_object? hx
    have hj : h.abstract? model ⟨j⟩ = some _ := Heap.abstract?_of_object? hy
    rw [hsite, ← hty] at hi
    exact congrArg ObjId.index (hv.injective hi hj)

theorem Inv.nodes_size_le (hs : Inv q S s) : s.graph.nodes.size ≤ extent q.program ^ 2 := by
  have hnodes : s.graph.nodes.size ≤ (pointers q.program s.heap.size).length := by
    refine le_length_of_unshared (R := fun i P => s.graph.pointer? i = some P) (fun i hi => ?_)
      hs.wellFormed.graph.distinct
    obtain ⟨P, hP⟩ := PointerGraph.exists_pointer? hi
    exact ⟨P, (hs.named hP).mem_pointers, hP⟩
  have hheap := heap_size_le hs.heap
  have hfields := length_fields_le q.program
  rw [length_pointers] at hnodes
  calc s.graph.nodes.size
      ≤ q.program.vars.size + (fields q.program).length +
          s.heap.size * (fields q.program).length + s.heap.size := hnodes
    _ ≤ q.program.vars.size + statementCount q.program +
          statementCount q.program * statementCount q.program + statementCount q.program := by
        gcongr
    _ ≤ extent q.program ^ 2 := by
        unfold extent
        generalize q.program.vars.size = x
        generalize statementCount q.program = y
        calc x + y + y * y + y ≤ x + y + y * y + y + (x * x + 2 * x * y + x + 1) :=
              Nat.le_add_right _ _
          _ = (x + y + 1) ^ 2 := by ring

theorem Inv.edges_size_le (hs : Inv q S s) : s.graph.edges.size ≤ extent q.program ^ 4 := by
  let nodes := List.range s.graph.nodes.size
  have hsub : s.graph.edges.toList ⊆ nodes ×ˢ nodes := by
    intro e he
    obtain ⟨i, j⟩ := e
    obtain ⟨hi, hj⟩ := hs.wellFormed.graph.edge_lt (Array.mem_toList_iff.mp he)
    exact List.mem_product.mpr ⟨List.mem_range.mpr hi, List.mem_range.mpr hj⟩
  have hlen := List.Nodup.length_le_of_subset hs.wellFormed.graph.edges_nodup hsub
  rw [List.length_product, List.length_range, Array.length_toList] at hlen
  calc s.graph.edges.size ≤ s.graph.nodes.size * s.graph.nodes.size := hlen
    _ ≤ extent q.program ^ 2 * extent q.program ^ 2 :=
        Nat.mul_le_mul hs.nodes_size_le hs.nodes_size_le
    _ = extent q.program ^ 4 := by ring

theorem Inv.factCount_le (hs : Inv q S s) : s.graph.factCount ≤ extent q.program ^ 3 := by
  have hobjects : ∀ n ∈ s.graph.nodes.toList, n.objects.size ≤ statementCount q.program := by
    intro n hn
    obtain ⟨i, hi⟩ := Array.mem_iff_getElem?.mp (Array.mem_toList_iff.mp hn)
    refine HandleSet.size_le fun o ho => ?_
    have hP : s.graph.pointer? i = some n.pointer := by simp [PointerGraph.pointer?, hi]
    have hobj : s.graph.objects i = n.objects := by simp [PointerGraph.objects, hi]
    obtain ⟨_, a, _, ha, _⟩ := (hs.justified (.inl ⟨i, hP, hobj ▸ ho⟩)).fact
    obtain ⟨x, hx, _⟩ := Option.map_eq_some_iff.mp ha
    exact Nat.lt_of_lt_of_le (Array.getElem?_eq_some_iff.mp hx).1 (heap_size_le hs.heap)
  calc s.graph.factCount
      ≤ s.graph.nodes.toList.length * statementCount q.program := total_le_length_mul hobjects
    _ ≤ extent q.program ^ 2 * extent q.program := by
        rw [Array.length_toList]
        exact Nat.mul_le_mul hs.nodes_size_le (by unfold extent; omega)
    _ = extent q.program ^ 3 := by ring

end PointsTo
end ProgramAnalysis
