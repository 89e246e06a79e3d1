import ProgramAnalysis.Proofs.CallGraph.Closed
import ProgramAnalysis.Proofs.PointsTo.Completion

/-! The states that the solver goes through. In each of them, what a node holds its successors hold
or are about to get, and every object at a variable has had its accesses and calls followed up; a
step takes nothing back. The invariant says so of programs on which no step fails, and every accepted
program is covered by such a program. -/
namespace ProgramAnalysis.PointsTo

/-- The states from the start of the solver on, also those after a step that finds nothing to do. -/
inductive Reached (q : Problem) : State → Prop
  | start {s : State} : (PointsTo.start q .initial).result = .ok s → Reached q s
  | step {s t : State} {more : Bool} : Reached q s →
      (PointsTo.step q s).result = .ok (more, t) → Reached q t

/-- `s` has grown to `t`; objects and nodes have kept their numbers. -/
structure Grew (s t : State) : Prop where
  heap : s.heap ≤ t.heap
  node : ∀ {n P}, s.graph.pointer? n = some P → t.graph.pointer? n = some P
  pointsTo : ∀ {P o}, o ∈ s.graph.pointsTo P → o ∈ t.graph.pointsTo P
  flowEdge : ∀ {e}, e ∈ s.graph.edges → e ∈ t.graph.edges
  callEdge : ∀ {e}, e ∈ s.calls.edges → e ∈ t.calls.edges
  reachable : ∀ {m}, m ∈ s.calls.reachable → m ∈ t.calls.reachable

/-- No object is lost: it is where it has to go or in an entry of the work list for it, and the
edges that it has to go along are there. -/
structure Intact (q : Problem) (s : State) : Prop where
  distinct : ∀ {n k P}, s.graph.pointer? n = some P → s.graph.pointer? k = some P → n = k
  carried : ∀ {n k o}, (n, k) ∈ s.graph.edges → o ∈ s.graph.objects n →
    o ∈ s.graph.objects k ∨ ∃ objects, (k, objects) ∈ s.work ∧ o ∈ objects
  fieldStored : ∀ {v o site f y}, o ∈ s.graph.pointsTo (.var v) →
    q.program.stmt? site = some (.store (.field (some v) f) y) →
    s.graph.Flows (.var y) (.instanceField o f)
  fieldLoaded : ∀ {v o site f x}, o ∈ s.graph.pointsTo (.var v) →
    q.program.stmt? site = some (.assign x (.field (some v) f)) →
    s.graph.Flows (.instanceField o f) (.var x)
  elementStored : ∀ {v o site i y}, o ∈ s.graph.pointsTo (.var v) →
    q.program.stmt? site = some (.store (.element v i) y) → s.graph.Flows (.var y) (.elements o)
  elementLoaded : ∀ {v o site i x}, o ∈ s.graph.pointsTo (.var v) →
    q.program.stmt? site = some (.assign x (.element v i)) → s.graph.Flows (.elements o) (.var x)
  called : ∀ {v o site result call m}, o ∈ s.graph.pointsTo (.var v) →
    q.program.stmt? site = some (.invoke result call) → call.receiver = some v →
    callTarget q s.heap (some o) call = .ok (some m) → ⟨call.kind, site, m⟩ ∈ s.calls.edges ∧
      ∀ b this, q.program.body? m = some b → b.this = some this → s.Reaches (.var this) o
  bound : ∀ {e}, e ∈ s.calls.edges → ∃ result call,
    q.program.stmt? e.site = some (.invoke result call) ∧ call.kind = e.kind ∧
    ∀ b, q.program.body? e.callee = some b →
      (∀ a x, (a, x) ∈ call.args.zip b.params → s.graph.Flows (.var a) (.var x)) ∧
      ∀ x i r, result = some x → b.stmt? i = some (.ret (some r)) → s.graph.Flows (.var r) (.var x)

variable {q : Problem} {S : Facts} {s t : State} {entry : MethodId} {p' : Program}

/-! ### By the invariant -/

theorem Inv.intact (hp : Serves q S) (hs : Inv q S s) (hset : Settled q s) : Intact q s := by
  have hheld : ∀ {P o}, o ∈ s.graph.pointsTo P → s.graph.Holds P o :=
    hs.wellFormed.graph.mem_pointsTo.mp
  refine ⟨hs.wellFormed.graph.distinct, ?carried, ?_, ?_, ?_, ?_, ?called, ?bound⟩
  case carried =>
    intro n k o he ho
    obtain ⟨hn, hk⟩ := hs.wellFormed.graph.edge_lt he
    obtain ⟨P, hP⟩ := PointerGraph.exists_pointer? hn
    obtain ⟨Q, hQ⟩ := PointerGraph.exists_pointer? hk
    rcases hs.carried ⟨n, k, hP, hQ, he⟩ ⟨n, hP, ho⟩ with ⟨j, hj, ho⟩ | ⟨j, objects, hm, hj, ho⟩
    · rw [hs.wellFormed.graph.distinct hQ hj]
      exact .inl ho
    · rw [hs.wellFormed.graph.distinct hQ hj]
      exact .inr ⟨objects, hm, ho⟩
  case called =>
    intro v o site result call m ho hst hrecv htarget
    have hthrough : (Stmt.invoke result call).through? = some (.invoke, v) := by
      simp [Stmt.through?, hrecv]
    obtain ⟨x, hx, hall⟩ := (hset.arrived (hheld ho) hst hthrough).called rfl
    obtain ⟨r, hr, hruns, -⟩ :=
      callTarget_ok hp.accepted hp.classes hs.heap hx (hp.classes.call hst)
    cases htarget.symm.trans hr
    exact hall m (hruns.mp rfl)
  case bound =>
    intro e he
    obtain ⟨result, call, hst, hkind, -⟩ := hs.edge he
    have hbound := hset.bound he
    refine ⟨result, call, hst, hkind, fun b hb => ⟨fun a x hax => ?_, fun x i r hx hr => ?_⟩⟩
    · exact hbound.flows hst hb (mem_bindFlows.mpr (.inl ⟨a, x, hax, rfl⟩))
    · exact hbound.flows hst hb (mem_bindFlows.mpr (.inr ⟨x, i, r, hx, hr, rfl⟩))
  all_goals
    intro v o site _ _ ho hst
    exact (hset.arrived (hheld ho) hst rfl).flow rfl

theorem Grows.grew (hs : s.WellFormed) (ht : t.WellFormed) (h : Grows s t) : Grew s t where
  heap := h.heap
  node := h.node
  pointsTo ho := ht.graph.mem_pointsTo.mpr (h.holds (hs.graph.mem_pointsTo.mp ho))
  flowEdge {e} he := by
    obtain ⟨hn, hk⟩ := hs.graph.edge_lt he
    obtain ⟨P, hP⟩ := PointerGraph.exists_pointer? hn
    obtain ⟨Q, hQ⟩ := PointerGraph.exists_pointer? hk
    exact (ht.graph.flows_iff (h.node hP) (h.node hQ)).mp (h.flows ⟨_, _, hP, hQ, he⟩)
  callEdge := h.edges
  reachable := h.reachable

theorem Reached.inv (hp : Serves q .all) (hentry : q.entry.or q.program.entry = some entry)
    (hlt : entry.index < q.program.methods.size) (h : Reached q s) :
    Inv q .all s ∧ Settled q s := by
  have hS := Facts.all_satisfies q entry
  induction h with
  | start h =>
    obtain ⟨t, ht, hinv, hset, -⟩ := start_ok hS hentry hlt
    cases h.symm.trans ht
    exact ⟨hinv, hset⟩
  | step _ h ih =>
    obtain ⟨r, hr, hinv, hset, -⟩ := ih.1.step hp hS ih.2
    cases h.symm.trans hr
    exact ⟨hinv, hset⟩

/-! ### Programs that cover others -/

theorem Reached.of_covered
    (hstart : PointsTo.start (q.on p') .initial = PointsTo.start q .initial)
    (hcovered : q.program.CoveredBy Set.univ p') (h : Reached q s) : Reached (q.on p') s := by
  induction h with
  | start h => exact .start (hstart ▸ h)
  | step _ h ih => exact ih.step (step_of_covered hcovered h)

theorem Intact.of_covered (hcovered : q.program.CoveredBy Set.univ p') (h : Intact (q.on p') s) :
    Intact q s := by
  have hbody : ∀ m, (q.on p').program.body? m = q.program.body? m := fun m =>
    hcovered.body m trivial
  have hstmt : ∀ site, (q.on p').program.stmt? site = q.program.stmt? site := fun site => by
    rw [Program.stmt?, hbody]
    rfl
  refine ⟨h.distinct, h.carried, ?_, ?_, ?_, ?_, ?_, ?_⟩ <;> simp only [← hstmt, ← hbody]
  · exact h.fieldStored
  · exact h.fieldLoaded
  · exact h.elementStored
  · exact h.elementLoaded
  · exact fun ho hst hrecv ht => h.called ho hst hrecv (callTarget_covered hcovered ht)
  · exact h.bound

/-! ### An entry that does not exist -/

/-- The solver stays where it starts if its entry is no method. -/
theorem Reached.exists_entry (h : Reached q s) : ∃ entry, q.entry.or q.program.entry = some entry ∧
    (entry.index < q.program.methods.size ∨
      s.graph = .empty ∧ s.calls.edges = #[] ∧ s.pending = [entry]) := by
  induction h with
  | start h =>
    obtain ⟨entry, hentry, hgraph, hcalls, hpending⟩ := ensures_start q _ h
    refine ⟨entry, hentry, .inr ⟨hgraph, ?_, hpending⟩⟩
    rw [hcalls, CallGraph.addReachable_edges]
    rfl
  | step _ h ih =>
    obtain ⟨entry, hentry, hlt | ⟨-, -, hpending⟩⟩ := ih
    · exact ⟨entry, hentry, .inl hlt⟩
    · exact ⟨entry, hentry, .inl (pending_lt hpending h)⟩

theorem intact_of_empty (hgraph : s.graph = .empty) (hcalls : s.calls.edges = #[]) :
    Intact q s := by
  have hpointer : ∀ n P, s.graph.pointer? n ≠ some P := by
    simp [hgraph, PointerGraph.pointer?, PointerGraph.empty]
  have hnothing : ∀ {P o} {C : Prop}, o ∈ s.graph.pointsTo P → C := fun {P o C} ho => by
    rw [hgraph, PointerGraph.valid_empty.mem_pointsTo] at ho
    obtain ⟨n, hn, -⟩ := ho
    exact absurd (hgraph ▸ hn) (hpointer n P)
  refine ⟨fun hn => absurd hn (hpointer _ _), fun he => ?_, hnothing, hnothing, hnothing, hnothing,
    hnothing, fun he => ?_⟩
  · simp [hgraph, PointerGraph.empty] at he
  · simp [hcalls] at he

/-! ### Every accepted program -/

/-- On an accepted program nothing is lost in any state that the solver reaches, and a step only
adds to it. No step fails unless some handle is out of range. -/
theorem reached_intact (ha : q.program.Accepted) (hs : Reached q s) :
    Intact q s ∧ (∀ more t, (step q s).result = .ok (more, t) → Grew s t) ∧
      (q.program.ClassesInRange → q.program.BindsDeclared →
        (∀ e, q.entry.or q.program.entry = some e → e.index < q.program.methods.size) →
        ∃ r, (step q s).result = .ok r) := by
  obtain ⟨entry, hentry, hor⟩ := hs.exists_entry
  by_cases hlt : entry.index < q.program.methods.size
  · obtain ⟨classes, vars, ha', hc', hb', hcovered⟩ := Program.exists_completed ha
    have hserves : Serves (q.on { q.program with classes, vars }) .all := serves_all ha' hc' hb'
    have hcovered := hcovered Set.univ
    have hs' : Reached (q.on { q.program with classes, vars }) s := hs.of_covered rfl hcovered
    obtain ⟨hinv, hset⟩ := hs'.inv hserves hentry hlt
    refine ⟨(hinv.intact hserves hset).of_covered hcovered, fun more t hstep => ?_,
      fun hc hb _ => ?_⟩
    · obtain ⟨r, hr, hinv', -, hgrows, -⟩ :=
        hinv.step hserves (Facts.all_satisfies _ entry) hset
      cases hr.symm.trans (step_of_covered hcovered hstep)
      exact hgrows.grew hinv.wellFormed hinv'.wellFormed
    · have hserves := serves_all ha hc hb
      obtain ⟨hinv, hset⟩ := hs.inv hserves hentry hlt
      obtain ⟨r, hr, -⟩ := hinv.step hserves (Facts.all_satisfies q entry) hset
      exact ⟨r, hr⟩
  · obtain ⟨hgraph, hcalls, hpending⟩ := hor.resolve_left hlt
    refine ⟨intact_of_empty hgraph hcalls, fun more t hstep => ?_, fun _ _ hin => ?_⟩
    · exact absurd (pending_lt hpending hstep) hlt
    · exact absurd (hin entry hentry) hlt

/-- After the first step on `Program.sample` the new object is at `b`, and on its way to the `this`
of the method that is called on `b`; after the second it has arrived. -/
theorem reached_intact_sample : ∃ s t, Reached ⟨.sample, .allocationSite, none⟩ s ∧
    Intact ⟨.sample, .allocationSite, none⟩ s ∧
    (step ⟨.sample, .allocationSite, none⟩ s).result = .ok (true, t) ∧ Grew s t ∧
    s.graph.pointsTo (.var ⟨3⟩) = .singleton ⟨0⟩ ∧ s.graph.pointsTo (.var ⟨5⟩) = .empty ∧
    t.graph.pointsTo (.var ⟨5⟩) = .singleton ⟨0⟩ := by
  have hrun : (do
      let r ← start ⟨.sample, .allocationSite, none⟩ .initial
      let s ← step ⟨.sample, .allocationSite, none⟩ r
      let t ← step ⟨.sample, .allocationSite, none⟩ s.2
      return decide (t.1 = true ∧ s.2.graph.pointsTo (.var ⟨3⟩) = .singleton ⟨0⟩ ∧
        s.2.graph.pointsTo (.var ⟨5⟩) = .empty ∧
        t.2.graph.pointsTo (.var ⟨5⟩) = .singleton ⟨0⟩) : Traced Bool).result = .ok true := by
    decide +kernel
  obtain ⟨r, hstart, hrun⟩ := Traced.bind_ok_iff.mp hrun
  obtain ⟨⟨_, s⟩, hs, hrun⟩ := Traced.bind_ok_iff.mp hrun
  obtain ⟨⟨more, t⟩, ht, hrun⟩ := Traced.bind_ok_iff.mp hrun
  obtain ⟨rfl, hheld⟩ := of_decide_eq_true (Except.ok.inj hrun)
  have hs := (Reached.start hstart).step hs
  obtain ⟨hintact, hgrew, -⟩ :=
    reached_intact (q := ⟨.sample, .allocationSite, none⟩) Program.accepted_sample hs
  exact ⟨s, t, hs, hintact, ht, hgrew true t ht, hheld⟩

end ProgramAnalysis.PointsTo
