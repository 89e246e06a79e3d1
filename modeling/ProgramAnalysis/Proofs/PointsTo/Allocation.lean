import ProgramAnalysis.PointsTo.Indexed
import ProgramAnalysis.Proofs.Firsts

/-! Objects are numbered by first request. After any requests a heap has one object for each key that
was asked for, with the number, site and type of the first request, and a map from keys to objects
finds the same ones as a search. -/
namespace ProgramAnalysis

/-- A request for the object of an allocation. -/
structure Allocation where
  site : StmtRef
  ty : Ty
deriving DecidableEq

def HeapModel.keyOf (model : HeapModel) (a : Allocation) : model.AllocationKey :=
  model.allocationKey a.site a.ty

def Allocation.object (n : Nat) (a : Allocation) : HeapObject := ⟨⟨n⟩, a.site, a.ty⟩

variable {model : HeapModel} {calls : List Allocation} {a : Allocation} {x : HeapObject}

theorem HeapModel.identifies_iff {site : StmtRef} {ty : Ty} : model.identifies x site ty = true ↔
    model.allocationKey x.site x.ty = model.allocationKey site ty := by
  cases model <;> exact beq_iff_eq

/-! ### Searches -/

namespace Heap

variable {run : List ObjId × Heap}

/-- The answers so far and the heap, after one more request. -/
def answer (model : HeapModel) (run : List ObjId × Heap) (a : Allocation) : List ObjId × Heap :=
  let (o, h) := run.2.allocate model a.site a.ty
  (run.1 ++ [o], h)

def after (model : HeapModel) (calls : List Allocation) : List ObjId × Heap :=
  calls.foldl (answer model) ([], empty)

/-- There is an object for the first request of each key, and each request is answered by the object
of its key. -/
structure Holds (model : HeapModel) (calls : List Allocation) (run : List ObjId × Heap) : Prop where
  objects : run.2.objects.toList = (firsts model.keyOf calls).mapIdx Allocation.object
  answers : run.1 = calls.map fun a => ⟨rank model.keyOf calls (model.keyOf a)⟩

theorem Holds.getElem? (h : Holds model calls run) (n : Nat) :
    run.2.objects[n]? = (firsts model.keyOf calls)[n]?.map (Allocation.object n) := by
  rw [← Array.getElem?_toList, h.objects, List.getElem?_mapIdx]

/-- An earlier request keeps its rank, so the earlier answers stay right. -/
theorem Holds.answers_concat (h : Holds model calls run) {o : ObjId}
    (ho : o = ⟨rank model.keyOf (calls ++ [a]) (model.keyOf a)⟩) :
    run.1 ++ [o] =
      (calls ++ [a]).map fun b => ⟨rank model.keyOf (calls ++ [a]) (model.keyOf b)⟩ := by
  rw [List.map_append, List.map_singleton, h.answers, ho]
  congr 1
  refine List.map_congr_left fun b hb => ?_
  rw [rank_concat (List.mem_map_of_mem hb)]

theorem Holds.answer (h : Holds model calls run) (a : Allocation) :
    Holds model (calls ++ [a]) (Heap.answer model run a) := by
  unfold Heap.answer allocate
  cases hf : run.2.objects.find? fun x => model.identifies x a.site a.ty with
  | some x =>
    obtain ⟨n, hn⟩ := Array.mem_iff_getElem?.mp (Array.mem_of_find?_eq_some hf)
    obtain ⟨b, hb, rfl⟩ := Option.map_eq_some_iff.mp ((h.getElem? n).symm.trans hn)
    have hid := Array.find?_some hf
    have hkey : model.keyOf b = model.keyOf a := HeapModel.identifies_iff.mp hid
    have hmem : model.keyOf a ∈ calls.map model.keyOf :=
      (mem_map_firsts calls).mp (List.mem_map.mpr ⟨b, List.mem_of_getElem? hb, hkey⟩)
    refine ⟨?_, h.answers_concat ?_⟩
    · rw [firsts_concat, if_pos hmem]
      exact h.objects
    · rw [rank_concat hmem, ← hkey, rank_eq hb]
      rfl
  | none =>
    have hnew : model.keyOf a ∉ calls.map model.keyOf := by
      intro hmem
      obtain ⟨b, hb, hkey⟩ := firsts_rank hmem
      have hx := (h.getElem? _).trans (congrArg _ hb)
      exact Array.find?_eq_none.mp hf _ (Array.mem_of_getElem? hx)
        (HeapModel.identifies_iff.mpr hkey)
    have hfirsts : firsts model.keyOf (calls ++ [a]) = firsts model.keyOf calls ++ [a] := by
      rw [firsts_concat, if_neg hnew]
    have hsize : run.2.objects.size = (firsts model.keyOf calls).length := by
      rw [← Array.length_toList, h.objects, List.length_mapIdx]
    refine ⟨?_, h.answers_concat ?_⟩
    · show (run.2.objects.push _).toList = _
      rw [Array.toList_push, h.objects, hfirsts, List.mapIdx_concat, hsize]
      rfl
    · have hlast : (firsts model.keyOf (calls ++ [a]))[run.2.objects.size]? = some a := by
        rw [hfirsts, hsize, List.getElem?_concat_length]
      rw [rank_eq hlast]
      rfl

theorem holds_after (model : HeapModel) (calls : List Allocation) :
    Holds model calls (after model calls) := by
  induction calls using List.reverseRecOn with
  | nil => exact ⟨rfl, rfl⟩
  | append_singleton calls a ih =>
    rw [after, List.foldl_append]
    exact ih.answer a

end Heap

/-! ### The map -/

namespace IndexedHeap

variable {h : IndexedHeap model}

/-- The map tells of each key what a search of the objects does. -/
def InStep (h : IndexedHeap model) : Prop := ∀ site ty,
  h.objectOf.get? (model.allocationKey site ty) =
    (h.heap.objects.find? fun x => model.identifies x site ty).map (·.id)

theorem InStep.allocate_eq (hs : h.InStep) (site : StmtRef) (ty : Ty) :
    ((h.allocate site ty).1, (h.allocate site ty).2.heap) = h.heap.allocate model site ty := by
  unfold allocate Heap.allocate
  rw [hs]
  cases h.heap.objects.find? fun x => model.identifies x site ty <;> rfl

theorem InStep.allocate (hs : h.InStep) (site : StmtRef) (ty : Ty) :
    (h.allocate site ty).2.InStep := by
  unfold IndexedHeap.allocate
  split
  · exact hs
  · next hmiss =>
    intro site' ty'
    show (h.objectOf.insert _ _).get? _ = ((h.heap.objects.push _).find? _).map _
    rw [Table.get?_insert, Array.find?_push]
    split
    · next hkey =>
      have hnone := (hs site' ty').symm
      rw [← hkey, hmiss, Option.map_eq_none_iff] at hnone
      rw [hnone, Option.none_or, if_pos (HeapModel.identifies_iff.mpr hkey)]
      rfl
    · next hkey =>
      rw [if_neg fun he => hkey (HeapModel.identifies_iff.mp he), Option.or_none]
      exact hs site' ty'

def answer (run : List ObjId × IndexedHeap model) (a : Allocation) :
    List ObjId × IndexedHeap model :=
  let (o, h) := run.2.allocate a.site a.ty
  (run.1 ++ [o], h)

theorem InStep.answer_eq {run : List ObjId × IndexedHeap model} (hs : run.2.InStep)
    (a : Allocation) : ((answer run a).1, (answer run a).2.heap) =
      Heap.answer model (run.1, run.2.heap) a := by
  unfold answer Heap.answer
  rw [← hs.allocate_eq]

def after (model : HeapModel) (calls : List Allocation) : List ObjId × IndexedHeap model :=
  calls.foldl answer ([], empty)

/-- The map stays in step, and the answers and objects are those of searches. -/
theorem inStep_after (calls : List Allocation) : (after model calls).2.InStep ∧
    ((after model calls).1, (after model calls).2.heap) = Heap.after model calls := by
  induction calls using List.reverseRecOn with
  | nil => exact ⟨fun _ _ => rfl, rfl⟩
  | append_singleton calls a ih =>
    obtain ⟨hstep, hsame⟩ := ih
    rw [after, Heap.after, List.foldl_append, List.foldl_append]
    refine ⟨hstep.allocate a.site a.ty, (hstep.answer_eq a).trans ?_⟩
    exact congrArg (Heap.answer model · a) hsame

/-- What holds after requests: answers are the same exactly for the same key, and the objects, as
many as there are keys, are numbered by the first requests of the keys, which they keep. -/
structure Consistent (run : List ObjId × IndexedHeap model) (calls : List Allocation) : Prop where
  same_iff : ∀ i j : Nat, run.1[i]? = run.1[j]? ↔
    calls[i]?.map model.keyOf = calls[j]?.map model.keyOf
  object? : ∀ n, run.2.object? ⟨n⟩ = (firsts model.keyOf calls)[n]?.map (Allocation.object n)
  size : run.2.heap.size = (calls.map model.keyOf).toFinset.card
  answered : ∀ (i : Nat) (a : Allocation), calls[i]? = some a → ∃ o x, run.1[i]? = some o ∧
    run.2.object? o = some x ∧ x.id = o ∧ model.allocationKey x.site x.ty = model.keyOf a
  running : (run.1, run.2.heap) = Heap.after model calls

theorem consistent_after (calls : List Allocation) : Consistent (after model calls) calls := by
  have hsame : ((after model calls).1, (after model calls).2.heap) = _ := (inStep_after calls).2
  have hholds := Heap.holds_after model calls
  have hanswers : (after model calls).1 = _ := (congrArg Prod.fst hsame).trans hholds.answers
  have hheap : (after model calls).2.heap = (Heap.after model calls).2 := congrArg Prod.snd hsame
  have hobject : ∀ n, (after model calls).2.object? ⟨n⟩ =
      (firsts model.keyOf calls)[n]?.map (Allocation.object n) := by
    intro n
    rw [object?, hheap]
    exact hholds.getElem? n
  refine ⟨fun i j => ?_, hobject, ?_, fun i a hi => ?_, hsame⟩
  · rw [hanswers, List.getElem?_map, List.getElem?_map]
    cases hi : calls[i]? with
    | none => cases calls[j]? <;> simp
    | some a =>
      have hmem : model.keyOf a ∈ calls.map model.keyOf :=
        List.mem_map_of_mem (List.mem_of_getElem? hi)
      cases calls[j]? with
      | none => simp
      | some b => simp [rank_inj hmem]
  · rw [hheap, Heap.size, ← Array.length_toList, hholds.objects, List.length_mapIdx, length_firsts]
  · obtain ⟨b, hb, hkey⟩ :=
      firsts_rank (List.mem_map_of_mem (f := model.keyOf) (List.mem_of_getElem? hi))
    refine ⟨_, _, ?_, (hobject _).trans (congrArg _ hb), rfl, hkey⟩
    rw [hanswers, List.getElem?_map, hi]
    rfl

end IndexedHeap
end ProgramAnalysis
