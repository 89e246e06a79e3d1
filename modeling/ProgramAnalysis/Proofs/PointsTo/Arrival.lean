import ProgramAnalysis.Proofs.PointsTo.Delivery
import ProgramAnalysis.Proofs.PointsTo.Receiver

/-! What follows when an object arrives at a variable: every access through the variable gets its
flow, and every call its callee, whose `this` the object reaches. A step of the solver delivers one
entry of the work list and follows up what has arrived. -/
namespace ProgramAnalysis.PointsTo

variable {q : Problem} {S : Facts} {s t : State} {m entry : MethodId} {o : ObjId} {v : VarId}
  {b : Body} {uses : UseSites}

/-! ### Accesses -/

theorem mem_filterMap_uses (hu : b.usesOf v = some uses) (kind : UseKind) {f : Pointer × Pointer}
    {g : Nat → Option (Pointer × Pointer)} (hg : ∀ i st, b.stmt? i = some st →
      st.through? = some (kind, v) → g i = st.accessFlow? o) :
    f ∈ (uses.of kind).filterMap g ↔ ∃ i st, b.stmt? i = some st ∧
      st.through? = some (kind, v) ∧ st.accessFlow? o = some f := by
  rw [List.mem_filterMap]
  constructor
  · intro h
    obtain ⟨i, hi, hf⟩ := h
    obtain ⟨st, hs, ht⟩ := (Body.mem_usesOf hu).mp hi
    exact ⟨i, st, hs, ht, hg i st hs ht ▸ hf⟩
  · intro h
    obtain ⟨i, st, hs, ht, hf⟩ := h
    exact ⟨i, (Body.mem_usesOf hu).mpr ⟨st, hs, ht⟩, (hg i st hs ht).trans hf⟩

theorem mem_accessFlows (hu : b.usesOf v = some uses) {f : Pointer × Pointer} :
    f ∈ accessFlows b uses o ↔ ∃ kind i st, b.stmt? i = some st ∧
      st.through? = some (kind, v) ∧ st.accessFlow? o = some f := by
  have hinvoke : ∀ {st : Stmt}, st.through? = some (.invoke, v) → st.accessFlow? o = none :=
    fun {st} ht => by
      unfold Stmt.through? at ht
      split at ht <;> simp_all [Stmt.accessFlow?]
  have hsplit : ∀ {p : UseKind → Prop}, ¬ p .invoke →
      ((∃ kind, p kind) ↔
        ((p .fieldStore ∨ p .fieldLoad) ∨ p .elementStore) ∨ p .elementLoad) := by
    intro p hp
    constructor
    · rintro ⟨_ | _ | _ | _ | _, h⟩ <;> simp_all
    · rintro (((h | h) | h) | h) <;> exact ⟨_, h⟩
  rw [hsplit fun ⟨i, st, _, ht, hf⟩ => by rw [hinvoke ht] at hf; cases hf]
  unfold accessFlows
  rw [List.mem_append, List.mem_append, List.mem_append]
  refine or_congr (or_congr (or_congr ?_ ?_) ?_) ?_
  · refine mem_filterMap_uses hu .fieldStore fun i st hs ht => ?_
    unfold Stmt.through? at ht
    split at ht <;> simp_all [Stmt.accessFlow?]
  · refine mem_filterMap_uses hu .fieldLoad fun i st hs ht => ?_
    unfold Stmt.through? at ht
    split at ht <;> simp_all [Stmt.accessFlow?]
  · refine mem_filterMap_uses hu .elementStore fun i st hs ht => ?_
    unfold Stmt.through? at ht
    split at ht <;> simp_all [Stmt.accessFlow?]
  · refine mem_filterMap_uses hu .elementLoad fun i st hs ht => ?_
    unfold Stmt.through? at ht
    split at ht <;> simp_all [Stmt.accessFlow?]

/-- The sites that a body keeps for a variable are its own statements. -/
theorem checkSites_ok (hu : b.usesOf v = some uses) : checkSites b (accessSites uses) = .ok () := by
  have hsite : ∀ kind, ∀ i ∈ uses.of kind, ∃ st, b.stmt? i = some st := by
    intro kind i hi
    obtain ⟨st, hst, _⟩ := (Body.mem_usesOf hu).mp hi
    exact ⟨st, hst⟩
  refine forM_ok fun i hi => ?_
  have hstmt : ∃ st, b.stmt? i = some st := by
    simp only [accessSites, List.mem_append] at hi
    obtain ((hi | hi) | hi) | hi := hi
    · exact hsite .fieldStore i hi
    · exact hsite .fieldLoad i hi
    · exact hsite .elementStore i hi
    · exact hsite .elementLoad i hi
  obtain ⟨st, hst⟩ := hstmt
  exact bind_ok_iff.mpr ⟨st, orDangling_eq_ok_iff.mpr hst, rfl⟩

/-! ### Arrivals -/

/-- Every statement that goes through `v` has been done for `o`. -/
def FollowedUp (q : Problem) (v : VarId) (o : ObjId) (s : State) : Prop :=
  ∀ {site st kind}, q.program.stmt? site = some st → st.through? = some (kind, v) →
    ArrivalDone q s o site st

theorem FollowedUp.mono (hst : Grows s t) (hf : FollowedUp q v o s) : FollowedUp q v o t :=
  fun hs ht => (hf hs ht).mono hst

theorem mem_uses_of_through? {st : Stmt} {kind : UseKind} (ht : st.through? = some (kind, v)) :
    v ∈ st.uses := by
  unfold Stmt.through? at ht
  split at ht <;> simp_all [Stmt.uses, Expr.vars, Place.vars]

/-- The statements that go through a variable are in the method of the variable. -/
theorem method_eq_of_through? (hp : q.program.Accepted) {site : StmtRef} {st : Stmt} {kind : UseKind}
    (hst : q.program.stmt? site = some st) (ht : st.through? = some (kind, v))
    (hv : q.program.Owns m v) : site.method = m :=
  (hp.owns_use hst (mem_uses_of_through? ht)).unique hv

theorem followedUp_of_unused (hp : q.program.Accepted) (hv : q.program.Owns m v)
    (hunused : ∀ b, q.program.body? m = some b → b.usesOf v = none) : FollowedUp q v o s := by
  intro site st kind hst ht
  obtain ⟨b, hb, hi⟩ := Program.stmt?_eq_some_iff.mp hst
  rw [method_eq_of_through? hp hst ht hv] at hb
  obtain ⟨uses, hu⟩ := Body.usesOf_isSome hi ht
  rw [hunused b hb] at hu
  cases hu

/-- The accesses through `v` have their flows, and its calls their callees. -/
theorem followedUp_of_uses (hp : q.program.Accepted) (hv : q.program.Owns m v)
    (hb : q.program.body? m = some b) (hu : b.usesOf v = some uses)
    (hflows : ∀ f ∈ accessFlows b uses o, s.graph.Flows f.1 f.2)
    (hcalls : ∀ i ∈ uses.of .invoke, ∀ st, b.stmt? i = some st → ArrivalDone q s o ⟨m, i⟩ st) :
    FollowedUp q v o s := by
  intro site st kind hst ht
  obtain ⟨b', hb', hi⟩ := Program.stmt?_eq_some_iff.mp hst
  have hsite := method_eq_of_through? hp hst ht hv
  rw [hsite, hb] at hb'
  cases hb'
  refine ⟨fun hf => hflows _ ((mem_accessFlows hu).mpr ⟨kind, _, st, hi, ht, hf⟩),
    fun {result call} he => ?_⟩
  subst he
  cases eq_invoke_of_through? ht
  have hdone := hcalls site.index ((Body.mem_usesOf hu).mpr ⟨_, hi, ht⟩) _ hi
  rw [← hsite] at hdone
  exact hdone.called rfl

theorem Inv.processArrival (hp : Serves q S) (hS : S.Satisfies q entry) (hs : Inv q S s)
    (hj : Justified q S s.heap (.var v) o) : Traced.Returns (processArrival q v s o) fun t =>
      Inv q S t ∧ Progress q s t ∧ FollowedUp q v o t := by
  obtain ⟨m, ⟨d, hd, rfl⟩, hm, hlt⟩ := hj.live v rfl
  have howns : q.program.Owns d.method v := ⟨d, hd, rfl⟩
  have hvar : q.program.getVar v = .ok d := by
    unfold Program.getVar
    rw [hd]
    rfl
  unfold PointsTo.processArrival
  rw [Traced.returns_lift_bind hvar]
  dsimp only
  rw [Traced.returns_lift_bind (Program.getBody_eq hlt)]
  cases hb : q.program.body? d.method with
  | none =>
    refine Traced.returns_pure.mpr ⟨hs, .refl s, followedUp_of_unused hp.accepted howns fun b hb' => ?_⟩
    rw [hb] at hb'
    cases hb'
  | some b =>
    dsimp only
    cases hu : b.usesOf v with
    | none =>
      refine Traced.returns_pure.mpr ⟨hs, .refl s, followedUp_of_unused hp.accepted howns fun b' hb' => ?_⟩
      rw [hb] at hb'
      cases hb'
      exact hu
    | some uses =>
      have hadmits : ∀ f ∈ accessFlows b uses o, Admits q S s.heap f.1 f.2 := by
        intro f hf
        obtain ⟨kind, i, st, hi, ht, hacc⟩ := (mem_accessFlows hu).mp hf
        have hst : q.program.stmt? ⟨d.method, i⟩ = some st :=
          Program.stmt?_eq_some_iff.mpr ⟨b, hb, hi⟩
        exact admits_accessFlow hp (hS.stmt hm hst) hst hm ht hj hacc
      obtain ⟨hinv, hext, hflows⟩ := hs.flows hadmits
      have hflowed : Progress q s (s.flows (accessFlows b uses o)) :=
        .of_edges hext (by rw [State.flows_calls])
      have hsites : checkSites b (accessSites uses) = .ok () := checkSites_ok hu
      rw [Traced.returns_lift_bind hsites]
      refine (Traced.Returns.foldlM
        (I := fun t => Inv q S t ∧ Extends (s.flows (accessFlows b uses o)) t) (R := Progress q)
        (D := fun i t => ∀ st, b.stmt? i = some st → ArrivalDone q t o ⟨d.method, i⟩ st)
        Progress.refl Progress.trans ?_ ?_ ⟨hinv, .refl _⟩).mono fun t ht => ?_
      · intro i t u htu hd st hi
        exact (hd st hi).mono htu.toExtends.grows
      · intro i hi t ⟨ht, hext'⟩
        have hi : i ∈ uses.of .invoke := hi
        obtain ⟨st, hst, hthrough⟩ := (Body.mem_usesOf hu).mp hi
        have hj' := hj.mono (Heap.le_trans hext.heap hext'.heap)
        refine (ht.processCall hp hS hb hst hthrough hm hj').mono fun u ⟨hu, hprog, hdone⟩ => ?_
        refine ⟨⟨hu, hext'.trans hprog.toExtends⟩, hprog, fun st' hst' => ?_⟩
        rw [hst] at hst'
        cases hst'
        exact hdone
      · obtain ⟨⟨ht, _⟩, hprog, hcalls⟩ := ht
        refine ⟨ht, hflowed.trans hprog, ?_⟩
        exact followedUp_of_uses hp.accepted howns hb hu (fun f hf => hprog.flows (hflows f hf)) hcalls

theorem Inv.processArrivals {n : Nat} {delta : ObjSet} {pointer : Pointer} (hp : Serves q S)
    (hS : S.Satisfies q entry) (hs : Inv q S s) (hn : s.graph.pointer? n = some pointer)
    (hheld : ∀ {P o}, s.graph.pointer? n = some P → o ∈ delta → s.graph.Holds P o) :
    Traced.Returns (processArrivals q s n delta) fun t => Inv q S t ∧ Progress q s t ∧
      ∀ {v o}, s.graph.pointer? n = some (.var v) → o ∈ delta → FollowedUp q v o t := by
  unfold PointsTo.processArrivals
  rw [Traced.returns_lift_bind (orDangling_eq_ok_iff.mpr hn)]
  split
  · next v =>
    refine (Traced.Returns.foldlM (I := fun t => Inv q S t ∧ Extends s t) (R := Progress q)
      (D := fun o t => FollowedUp q v o t) Progress.refl Progress.trans
      (fun htu hd => hd.mono htu.toExtends.grows) ?_ ⟨hs, .refl s⟩).mono ?_
    · intro o ho t h
      obtain ⟨ht, hext⟩ := h
      have hj := (hs.justified (.inl (hheld hn ho))).mono hext.heap
      refine (ht.processArrival hp hS hj).mono ?_
      intro u h
      obtain ⟨hu, hprog, hdone⟩ := h
      exact ⟨⟨hu, hext.trans hprog.toExtends⟩, hprog, hdone⟩
    · intro t h
      obtain ⟨⟨ht, _⟩, hprog, hall⟩ := h
      refine ⟨ht, hprog, fun {w o} hw ho => ?_⟩
      rw [hn] at hw
      cases hw
      exact hall o ho
  · next hnone =>
    refine Traced.returns_pure.mpr ⟨hs, .refl s, fun {w o} hw _ => ?_⟩
    rw [hn] at hw
    cases hw
    exact absurd rfl (hnone w)

/-! ### Steps -/

theorem Inv.pending_fuel (hs : Inv q S s) : q.program.methods.size + s.pending.length <
    q.program.methods.size + 1 + s.calls.reachable.size := by
  have hle := hs.pending.length_le
  rw [Array.length_toList] at hle
  omega

/-- A step keeps what the solver keeps. If it says that nothing is left to do, nothing is. -/
theorem Inv.step (hp : Serves q S) (hS : S.Satisfies q entry) (hs : Inv q S s)
    (hset : Settled q s) : Traced.Returns (step q s) fun r =>
      Inv q S r.2 ∧ Settled q r.2 ∧ Grows s r.2 ∧
        (r.1 = false → r.2.work = [] ∧ r.2.pending = []) := by
  unfold PointsTo.step
  refine (hs.processPending hp hS _ hset hs.pending_fuel).bind ?_
  intro t hr
  obtain ⟨ht, hset', hgrows, hpending⟩ := hr
  split
  · next hwork => exact Traced.returns_pure.mpr ⟨ht, hset', hgrows, fun _ => ⟨hwork, hpending⟩⟩
  · next n objects work hwork =>
    obtain ⟨pointer, hn⟩ :=
      PointerGraph.exists_pointer? (ht.wellFormed.work_lt (hwork ▸ List.mem_cons_self))
    refine (ht.propagate hwork (t.workListEntries + 1)).bind ?_
    intro r hd
    obtain ⟨delta, u⟩ := r
    dsimp only at hd ⊢
    have hheld : ∀ {P o}, u.graph.pointer? n = some P → o ∈ delta → u.graph.Holds P o :=
      fun hP ho => hd.holds.mpr (.inr ⟨hd.pointer ▸ hP, ho⟩)
    refine (hd.inv.processArrivals hp hS (hd.pointer.trans hn) hheld).bind ?_
    intro w hr
    obtain ⟨hw, hprog, hfollowed⟩ := hr
    have hgrows' : Grows t w := hd.grows.trans hprog.toExtends.grows
    refine Traced.returns_pure.mpr ⟨hw, Settled.of_progress hprog ?_ ?_ ?_,
      hgrows.trans hgrows', nofun⟩
    · intro e he
      rw [hd.calls] at he
      exact (hset'.bound he).mono hd.grows
    · intro v o site st kind ho hst hthrough
      rcases hd.holds.mp ho with ho | ⟨hv, ho⟩
      · exact (hset'.arrived ho hst hthrough).mono hgrows'
      · exact hfollowed (hd.pointer.symm ▸ hv) ho hst hthrough
    · intro site st hsite hst
      rw [hd.calls] at hsite
      rw [hd.pending]
      exact (hset'.done hsite hst).imp_right fun h => h.mono hgrows'

end ProgramAnalysis.PointsTo
