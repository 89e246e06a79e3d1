import Mathlib.Tactic.Ring
import ProgramAnalysis.Proofs.Counting
import ProgramAnalysis.Proofs.PointsTo.Link

/-! What the operations of the solver put on the work list, and what pays for it: a statement or a
flow edge pays for one entry, and an object that is new at a node for the entries that it causes.
`debt` is what has not been paid for. The statements of a reached method are processed once. -/
namespace ProgramAnalysis

def PointerGraph.factCount (g : PointerGraph) : Nat :=
  total (g.nodes.toList.map fun n => n.objects.size)

namespace PointerGraph

variable {g : PointerGraph} {n : Nat}

@[simp] theorem factCount_addEdge {k : Nat} : (g.addEdge n k).factCount = g.factCount := by
  simp [factCount]

@[simp] theorem edges_intern {P : Pointer} : (g.intern P).2.edges = g.edges := by
  unfold intern
  split <;> rfl

@[simp] theorem factCount_intern {P : Pointer} : (g.intern P).2.factCount = g.factCount := by
  unfold intern
  split
  · rfl
  · simp only [factCount, Array.toList_push, List.map_append, total_append]
    rfl

theorem size_edges_addEdge {k : Nat} (h : ¬ g.hasEdge n k = true) :
    (g.addEdge n k).edges.size = g.edges.size + 1 := by
  unfold addEdge
  rw [if_neg h, Array.size_push]

theorem factCount_addObjects {delta : ObjSet} (hn : n < g.nodes.size)
    (hnew : ∀ o ∈ delta, o ∉ g.objects n) :
    g.factCount + delta.size ≤ (g.addObjects n delta).factCount := by
  have hget : g.nodes.toList[n]? = some g.nodes[n] := by simp [hn]
  have hsum := total_map_modify (f := fun d : PointerNode => d.objects.size)
    (g := fun d => { d with objects := d.objects.union delta }) hget
  have hobjects : g.objects n = g.nodes[n].objects := by
    simp [objects, Array.getElem?_eq_getElem hn]
  have hunion : HandleSet.size g.nodes[n].objects + delta.size ≤
      HandleSet.size (g.nodes[n].objects.union delta) :=
    HandleSet.size_union_ge (hobjects ▸ hnew)
  dsimp only at hsum
  unfold factCount addObjects
  rw [Array.toList_modify]
  omega

end PointerGraph

namespace PointsTo

/-- The statements of several methods. -/
def bodySizes (p : Program) (ms : List MethodId) : Nat := total (ms.map (bodySize p))

theorem bodySizes_append (p : Program) (ms ms' : List MethodId) :
    bodySizes p (ms ++ ms') = bodySizes p ms + bodySizes p ms' := by
  unfold bodySizes
  rw [List.map_append, total_append]

namespace State

/-- The entries of the work list so far, less what pays for them. -/
def debt (price : Nat) (s : State) : Int :=
  s.workListEntries + s.work.length - s.statementsProcessed - s.graph.edges.size -
    price * s.graph.factCount

/-- The statements of reached methods that are neither processed nor pending. -/
def unread (p : Program) (s : State) : Int :=
  bodySizes p s.calls.reachable.toList - bodySizes p s.pending - s.statementsProcessed

end State

/-- From `s` to `t` the debt has grown by `c` at most, and `d` statements have been read; no entry has
been taken. -/
structure Spends (p : Program) (price : Nat) (c d : Int) (s t : State) : Prop where
  debt : t.debt price ≤ s.debt price + c
  unread : t.unread p = s.unread p - d
  entries : t.workListEntries = s.workListEntries
  started : t.started = s.started

variable {p : Program} {price : Nat} {c d c' d' : Int} {s t u : State} {P Q : Pointer}
  {objects : ObjSet}

namespace Spends

theorem refl (s : State) : Spends p price 0 0 s s := ⟨by omega, by omega, rfl, rfl⟩

theorem trans (hst : Spends p price c d s t) (htu : Spends p price c' d' t u) :
    Spends p price (c + c') (d + d') s u := by
  have h₁ := hst.debt
  have h₂ := htu.debt
  have h₃ := hst.unread
  have h₄ := htu.unread
  exact ⟨by omega, by omega, htu.entries.trans hst.entries, htu.started.trans hst.started⟩

theorem mono (h : Spends p price c d s t) (hc : c ≤ c') (hd : d = d') :
    Spends p price c' d' s t :=
  ⟨by have := h.debt; omega, hd ▸ h.unread, h.entries, h.started⟩

/-- Only the nodes of the graph, the heap or the call edges have changed. -/
theorem of_eq (hwork : t.work = s.work) (hedges : t.graph.edges = s.graph.edges)
    (hfacts : t.graph.factCount = s.graph.factCount)
    (hreach : t.calls.reachable = s.calls.reachable) (hpend : t.pending = s.pending)
    (hcount : t.statementsProcessed = s.statementsProcessed)
    (hentries : t.workListEntries = s.workListEntries) (hstarted : t.started = s.started) :
    Spends p price 0 0 s t := by
  refine ⟨?_, ?_, hentries, hstarted⟩
  · unfold State.debt
    rw [hwork, hedges, hfacts, hcount, hentries]
    omega
  · unfold State.unread
    rw [hreach, hpend, hcount]
    omega

theorem intern (s : State) (P : Pointer) : Spends p price 0 0 s (s.intern P).2 :=
  .of_eq rfl PointerGraph.edges_intern PointerGraph.factCount_intern rfl rfl rfl rfl rfl

theorem enqueue (s : State) (n : Nat) (objects : ObjSet) :
    Spends p price 1 0 s (s.enqueue n objects) := by
  refine ⟨?_, ?_, rfl, rfl⟩
  · simp only [State.debt, State.enqueue, List.length_append, List.length_singleton]
    omega
  · simp only [State.unread, State.enqueue]
    omega

theorem send (s : State) (P : Pointer) (objects : ObjSet) :
    Spends p price 1 0 s (s.send P objects) :=
  ((intern s P).trans (enqueue _ _ _)).mono (by omega) (by omega)

/-- A new edge pays for the entry that it causes. -/
theorem connect (s : State) (n k : Nat) : Spends p price 0 0 s (s.connect n k) := by
  unfold State.connect
  split
  · exact refl s
  · next hnew =>
    have hedge : Spends p price (-1) 0 s { s with graph := s.graph.addEdge n k } := by
      refine ⟨?_, by simp only [State.unread]; omega, rfl, rfl⟩
      simp only [State.debt, PointerGraph.factCount_addEdge,
        PointerGraph.size_edges_addEdge hnew]
      omega
    dsimp only
    split
    · exact hedge.mono (by omega) rfl
    · exact (hedge.trans (enqueue _ _ _)).mono (by omega) (by omega)

theorem flow (s : State) (P Q : Pointer) : Spends p price 0 0 s (s.flow P Q) :=
  ((intern s P).trans (intern _ Q)).trans (connect _ _ _)

theorem flows (s : State) (fs : List (Pointer × Pointer)) :
    Spends p price 0 0 s (s.flows fs) := by
  unfold State.flows
  induction fs generalizing s with
  | nil => exact refl s
  | cons f fs ih => exact (flow s f.1 f.2).trans (ih _)

/-- A method that is reached is pending. -/
theorem reach (p : Program) (price : Nat) (s : State) (m : MethodId) :
    Traced.Ensures (s.reach m) (Spends p price 0 0 s) := by
  unfold State.reach
  split
  · exact Traced.ensures_pure.mpr (refl s)
  · next hnew =>
    refine Traced.ensures_true.bind fun _ _ => Traced.ensures_pure.mpr ⟨?_, ?_, rfl, rfl⟩
    · simp only [State.debt]
      omega
    · simp only [State.unread, CallGraph.toList_addReachable hnew, bodySizes_append]
      omega

/-- A loop spends what its rounds spend. -/
theorem foldlM {α : Type} {f : State → α → Traced State} {xs : List α}
    (hf : ∀ a ∈ xs, ∀ s, Traced.Ensures (f s a) (Spends p price c d s)) (s : State) :
    Traced.Ensures (xs.foldlM f s) (Spends p price (xs.length * c) (xs.length * d) s) := by
  induction xs generalizing s with
  | nil => exact Traced.ensures_pure.mpr ((refl s).mono (by simp) (by simp))
  | cons a xs ih =>
    rw [List.foldlM_cons]
    refine (hf a List.mem_cons_self s).bind fun t hst => ?_
    refine (ih (fun b hb => hf b (List.mem_cons_of_mem a hb)) t).mono fun u htu => ?_
    have hsum : ∀ z : Int, z + xs.length * z = (a :: xs).length * z := fun z => by
      rw [List.length_cons]
      push_cast
      ring
    exact (hst.trans htu).mono (Int.le_of_eq (hsum c)) (hsum d)

/-! ### Operations of the solver -/

variable {q : Problem} (price)

/-- A lookup that succeeds finds the body. -/
theorem ensures_getBody (p : Program) (m : MethodId) :
    Traced.Ensures (liftM (p.getBody m)) fun body => body = p.body? m :=
  fun _ hbody => (Program.getBody_ok_iff.mp hbody).2.symm

theorem link (s : State) (site : StmtRef) (call : Call) (result : Option VarId) (m : MethodId) :
    Traced.Ensures (link q s site call result m) (Spends q.program price 0 0 s) := by
  unfold PointsTo.link
  split
  · exact Traced.ensures_pure.mpr (refl s)
  · refine Traced.ensures_true.bind fun _ _ => ?_
    have hedge : Spends q.program price 0 0 s
        { s with calls := s.calls.addEdge ⟨call.kind, site, m⟩ } :=
      .of_eq rfl rfl rfl CallGraph.addEdge_reachable rfl rfl rfl rfl
    refine (reach q.program price _ m).bind fun t hst => ?_
    refine Traced.ensures_true.bind fun body _ => ?_
    cases body with
    | none => exact Traced.ensures_pure.mpr (hedge.trans hst)
    | some b =>
      refine Traced.ensures_pure.mpr ?_
      rw [State.bind_eq]
      exact (hedge.trans hst).trans (flows t _)

/-- A statement pays for the object that it sends. -/
theorem processStmt (m : MethodId) (s : State) (indexed : Nat × Stmt) :
    Traced.Ensures (processStmt q m s indexed) (Spends q.program price 0 1 s) := by
  obtain ⟨i, st⟩ := indexed
  have hcount : Spends q.program price (-1) 1 s
      { s with statementsProcessed := s.statementsProcessed + 1 } := by
    refine ⟨?_, ?_, rfl, rfl⟩
    · simp only [State.debt]
      omega
    · simp only [State.unread]
      omega
  have hidle : ∀ {t}, Spends q.program price 0 0
      { s with statementsProcessed := s.statementsProcessed + 1 } t →
      Spends q.program price 0 1 s t := fun h => (hcount.trans h).mono (by omega) (by omega)
  unfold PointsTo.processStmt
  dsimp only
  split
  case h_1 x ty =>
    have halloc : Spends q.program price 0 0
        { s with statementsProcessed := s.statementsProcessed + 1 }
        (State.allocate { s with statementsProcessed := s.statementsProcessed + 1 } q.model
          ⟨m, i⟩ ty).2 := .of_eq rfl rfl rfl rfl rfl rfl rfl rfl
    refine Traced.ensures_pure.mpr ?_
    exact ((hcount.trans halloc).trans (send _ _ _)).mono (by omega) (by omega)
  case h_5 result call =>
    split
    · refine Traced.ensures_true.bind fun callee _ => ?_
      cases callee with
      | none =>
        exact Traced.ensures_true.bind fun _ _ => Traced.ensures_pure.mpr (hidle (refl _))
      | some m' => exact (link price _ _ _ _ _).mono fun t h => hidle h
    · exact Traced.ensures_pure.mpr (hidle (refl _))
  case h_6 => exact Traced.ensures_pure.mpr (hidle (refl _))
  all_goals exact Traced.ensures_pure.mpr (hidle (flow _ _ _))

theorem processMethod (s : State) (m : MethodId) :
    Traced.Ensures (processMethod q s m)
      (Spends q.program price 0 (bodySize q.program m) s) := by
  unfold PointsTo.processMethod
  refine (ensures_getBody q.program m).bind fun body hbody => ?_
  have hsize : bodySize q.program m = body.elim 0 Body.size := by rw [hbody]; rfl
  rw [hsize]
  cases body with
  | none => exact Traced.ensures_pure.mpr (refl s)
  | some b =>
    refine (foldlM (fun e _ s => processStmt price m s e) s).mono fun t h => ?_
    refine h.mono (by simp) ?_
    simp [Body.indexed, Body.size]

theorem processPending (fuel : Nat) (s : State) :
    Traced.Ensures (processPending q fuel s) (Spends q.program price 0 0 s) := by
  induction fuel generalizing s with
  | zero => exact Traced.ensures_pure.mpr (refl s)
  | succ fuel ih =>
    unfold PointsTo.processPending
    split
    · exact Traced.ensures_pure.mpr (refl s)
    · next m pending hcons =>
      have hpop : Spends q.program price 0 (-bodySize q.program m) s { s with pending } := by
        refine ⟨?_, ?_, rfl, rfl⟩
        · simp only [State.debt]
          omega
        · simp only [State.unread, hcons, bodySizes, List.map_cons, total_cons]
          omega
      refine (processMethod price _ m).bind fun t hst => ?_
      refine (ih t).mono fun u htu => ?_
      exact ((hpop.trans hst).trans htu).mono (by omega) (by omega)

theorem processCall (b : Body) (m : MethodId) (o : ObjId) (s : State) (i : Nat) :
    Traced.Ensures (processCall q b m o s i) (Spends q.program price 1 0 s) := by
  unfold PointsTo.processCall
  have hidle : Spends q.program price 1 0 s s := (refl s).mono (by omega) rfl
  refine Traced.ensures_true.bind fun st _ => ?_
  split
  · next result call =>
    refine Traced.ensures_true.bind fun callee _ => ?_
    cases callee with
    | none => exact Traced.ensures_true.bind fun _ _ => Traced.ensures_pure.mpr hidle
    | some m' =>
      refine Traced.ensures_true.bind fun body _ => ?_
      dsimp only
      cases body.bind (·.this) with
      | none => exact (link price _ _ _ _ _).mono fun t h => h.mono (by omega) rfl
      | some this =>
        refine (link price _ _ _ _ _).mono fun t h => ?_
        exact ((send s _ _).trans h).mono (by omega) (by omega)
  · exact Traced.ensures_pure.mpr hidle

/-- An object that arrives at a variable causes an entry for each call through the variable at
most. -/
theorem processArrival (v : VarId) (s : State) (o : ObjId) :
    Traced.Ensures (processArrival q v s o)
      (Spends q.program price (statementCount q.program) 0 s) := by
  unfold PointsTo.processArrival
  have hidle : Spends q.program price (statementCount q.program) 0 s s :=
    (refl s).mono (by omega) rfl
  refine Traced.ensures_true.bind fun decl _ => ?_
  dsimp only
  refine (ensures_getBody q.program decl.method).bind fun body hbody => ?_
  cases body with
  | none => exact Traced.ensures_pure.mpr hidle
  | some b =>
    dsimp only
    cases hu : b.usesOf v with
    | none => exact Traced.ensures_pure.mpr hidle
    | some uses =>
      have hcalls := Body.length_usesOf_le hu .invoke
      have hsize : b.size ≤ statementCount q.program := by
        have hlt := Program.lt_of_body? hbody.symm
        refine le_total (List.mem_map.mpr ⟨decl.method, ?_, ?_⟩)
        · exact List.mem_map.mpr ⟨_, List.mem_range.mpr hlt, rfl⟩
        · show (q.program.body? decl.method).elim 0 Body.size = b.size
          rw [← hbody]
          rfl
      refine Traced.ensures_true.bind fun _ _ => ?_
      refine (foldlM (fun i _ s => processCall price b decl.method o s i) _).mono fun t h => ?_
      refine ((flows s (accessFlows b uses o)).trans h).mono ?_ (by omega)
      show 0 + ((uses.of .invoke).length : Int) * 1 ≤ _
      omega

theorem processArrivals (s : State) (n : Nat) (delta : ObjSet) :
    Traced.Ensures (processArrivals q s n delta)
      (Spends q.program price (delta.size * statementCount q.program) 0 s) := by
  unfold PointsTo.processArrivals
  refine Traced.ensures_true.bind fun pointer _ => ?_
  split
  · refine (foldlM (fun o _ s => processArrival price _ s o) s).mono fun t h => ?_
    exact h.mono (Int.le_refl _) (by simp)
  · refine Traced.ensures_pure.mpr ((refl s).mono ?_ rfl)
    exact_mod_cast Nat.zero_le _

end Spends

end PointsTo
end ProgramAnalysis
