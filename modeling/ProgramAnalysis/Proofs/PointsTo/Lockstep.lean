import ProgramAnalysis.Proofs.Lockstep
import ProgramAnalysis.Proofs.PointsTo.Arrival
import ProgramAnalysis.Proofs.Program.Agreement

/-! The solver on a program and one that covers it on the methods in `R`. As long as no other method
becomes reachable it does the same on both, as it looks at the body of a method only if that is
reachable: pending methods are, callees become so, and the variables that have nodes belong to
methods that are. -/
namespace ProgramAnalysis

open Traced

namespace Stmt

variable {st : Stmt} {f : Pointer × Pointer} {v : VarId}

theorem mentions_of_directFlow (hf : st.directFlow? = some f) (hv : f.1 = .var v ∨ f.2 = .var v) :
    st.def? = some v ∨ v ∈ st.uses := by
  unfold directFlow? at hf
  split at hf <;> cases hf <;> rcases hv with hv | hv <;> cases hv <;>
    simp [Stmt.def?, Stmt.uses, Expr.vars]

theorem mentions_of_accessFlow {o : ObjId} (hf : st.accessFlow? o = some f)
    (hv : f.1 = .var v ∨ f.2 = .var v) : st.def? = some v ∨ v ∈ st.uses := by
  unfold accessFlow? at hf
  split at hf <;> cases hf <;> rcases hv with hv | hv <;> cases hv <;>
    simp [Stmt.def?, Stmt.uses]

end Stmt

theorem PointerGraph.pointer?_of_intern {g : PointerGraph} {P A : Pointer} {n : Nat}
    (h : (g.intern P).2.pointer? n = some A) : g.pointer? n = some A ∨ A = P := by
  unfold intern at h
  split at h
  · exact .inl h
  · simp only [pointer?, Array.getElem?_push] at h
    split at h
    · exact .inr (Option.some.inj h).symm
    · exact .inl h

namespace PointsTo

def Problem.on (q : Problem) (p' : Program) : Problem := { q with program := p' }

def State.seen (s : State) : Set MethodId := {m | m ∈ s.calls.reachable}

/-- If the pointer is a variable, it belongs to a method in `R`. -/
def Anchored (p : Program) (R : Set MethodId) (P : Pointer) : Prop :=
  ∀ v k, P = .var v → p.Owns k v → k ∈ R

/-- What the solver is going to look at belongs to `R`. -/
structure Tied (p : Program) (R : Set MethodId) (s : State) : Prop where
  node : ∀ {n P}, s.graph.pointer? n = some P → Anchored p R P
  pending : ∀ {m}, m ∈ s.pending → m ∈ R
  edge : ∀ {e}, e ∈ s.calls.edges → e.callee ∈ R

variable {q : Problem} {p p' : Program} {R : Set MethodId} {s t : State} {m callee entry : MethodId}
  {b : Body} {P Q : Pointer} {v : VarId} {o : ObjId} {site : StmtRef} {call : Call}
  {result : Option VarId} {i : Nat}

/-! ### Ties -/

theorem anchored_of_mentions (hc : p.Confines R) (hm : m ∈ R) (hb : p.body? m = some b)
    (hv : b.Mentions v) : Anchored p R (.var v) := by
  intro w k hw hk
  cases hw
  exact hc m b v hm hb hv k hk

theorem Tied.intern (hs : Tied p R s) (hP : Anchored p R P) : Tied p R (s.intern P).2 where
  node h := (PointerGraph.pointer?_of_intern h).elim hs.node fun hA => hA ▸ hP
  pending := hs.pending
  edge := hs.edge

theorem Tied.send {objects : ObjSet} (hs : Tied p R s) (hP : Anchored p R P) :
    Tied p R (s.send P objects) :=
  ⟨(hs.intern hP).node, hs.pending, hs.edge⟩

theorem Tied.flow (hs : Tied p R s) (hP : Anchored p R P) (hQ : Anchored p R Q) :
    Tied p R (s.flow P Q) where
  node h := by
    rw [State.flow_eq, State.connect_graph, PointerGraph.pointer?_addEdge] at h
    exact ((hs.intern hP).intern hQ).node h
  pending h := hs.pending (State.flow_pending ▸ h)
  edge h := hs.edge (State.flow_calls ▸ h)

theorem Tied.flows {fs : List (Pointer × Pointer)} (hs : Tied p R s)
    (hfs : ∀ f ∈ fs, Anchored p R f.1 ∧ Anchored p R f.2) : Tied p R (s.flows fs) := by
  unfold State.flows
  induction fs generalizing s with
  | nil => exact hs
  | cons f fs ih =>
    obtain ⟨hP, hQ⟩ := hfs f List.mem_cons_self
    exact ih (hs.flow hP hQ) fun f' hf' => hfs f' (List.mem_cons_of_mem f hf')

theorem seen_flows (s : State) (fs : List (Pointer × Pointer)) : (s.flows fs).seen = s.seen := by
  unfold State.seen
  rw [State.flows_calls]

/-! ### Calls -/

/-- Steps of the solver on both programs. -/
abbrev Keeps (p : Program) (R : Set MethodId) {α : Type} (s : State) (st : α → State)
    (y x : Traced α) : Prop :=
  Mirrors State.seen R (Tied p R) s st y x

theorem mem_seen_of_reach (h : (s.reach m).result = .ok t) : m ∈ t.seen ∧ s.seen ⊆ t.seen := by
  unfold State.reach at h
  split at h
  · next hold =>
    cases h
    exact ⟨CallGraph.isReachable_iff.mp hold, subset_rfl⟩
  · cases h
    exact ⟨CallGraph.mem_addReachable.mpr (.inr rfl),
      fun k hk => CallGraph.mem_addReachable.mpr (.inl hk)⟩

theorem keeps_reach {s₀ : State} (hgrows : s₀.seen ⊆ s.seen)
    (hkept : Tied p R s₀ → m ∈ R → Tied p R s) : Keeps p R s₀ id (s.reach m) (s.reach m) where
  grows t ht := hgrows.trans (mem_seen_of_reach ht).2
  same hs t ht hR := by
    refine ⟨rfl, ?_⟩
    have hm : m ∈ R := hR (mem_seen_of_reach ht).1
    have htied := hkept hs hm
    unfold State.reach at ht
    split at ht
    · cases ht
      exact htied
    · cases ht
      refine ⟨htied.node, fun {k} hk => ?_, fun {e} he => ?_⟩
      · rcases List.mem_append.mp hk with hk | hk
        · exact htied.pending hk
        · exact List.mem_singleton.mp hk ▸ hm
      · exact htied.edge (CallGraph.addReachable_edges (g := s.calls) ▸ he)

theorem seen_of_bind {u : State} (h : (do
    match ← (liftM (p.getBody callee) : Traced (Option Body)) with
    | none => return t
    | some body => return t.bind call result body : Traced State).result = .ok u) :
    u.seen = t.seen := by
  obtain ⟨body, -, h⟩ := Traced.bind_ok_iff.mp h
  cases body with
  | none =>
    cases h
    rfl
  | some b =>
    cases h
    rw [State.bind_eq, seen_flows]

/-- A call of a method in `R` is bound in the same way in both programs. -/
theorem keeps_link (ha : q.program.CoveredBy R p') (hc : q.program.Confines R)
    (hcall : ∀ v, v ∈ call.args ∨ result = some v → Anchored q.program R (.var v)) (s : State)
    (site : StmtRef) (callee : MethodId) :
    Keeps q.program R s id (link (q.on p') s site call result callee)
      (link q s site call result callee) := by
  unfold link
  by_cases hold : s.calls.hasEdge site callee = true
  · rw [if_pos hold, if_pos hold]
    exact mirrors_pure subset_rfl fun hs _ => hs
  · rw [if_neg hold, if_neg hold]
    refine mirrors_log_bind ?_
    refine (keeps_reach ?_ fun hs hm => ?_).bind fun t ht => ?_
    · show s.seen ⊆ _
      unfold State.seen
      rw [CallGraph.addEdge_reachable]
    · refine ⟨hs.node, hs.pending, fun {e} he => ?_⟩
      rcases CallGraph.of_mem_addEdge he with he | rfl
      · exact hs.edge he
      · exact hm
    · have hmem := (mem_seen_of_reach ht).1
      refine Mirrors.of_end (fun u hu => (seen_of_bind hu).ge) fun _ u hu hR => ?_
      have hm : callee ∈ R := hR ((seen_of_bind hu).ge hmem)
      refine mirrors_lift_bind (fun body hbody => (ha.getBody hm).trans hbody) fun body hbody => ?_
      cases body with
      | none => exact mirrors_pure subset_rfl fun hs _ => hs
      | some b =>
        have hb : q.program.body? callee = some b := (Program.getBody_ok_iff.mp hbody).2
        dsimp only
        rw [State.bind_eq]
        refine mirrors_pure (seen_flows t _).ge fun ht _ => ht.flows fun f hf => ?_
        rcases mem_bindFlows.mp hf with ⟨a, x, hax, rfl⟩ | ⟨x, j, r, hx, hr, rfl⟩
        · obtain ⟨ha', hx⟩ := List.of_mem_zip hax
          exact ⟨hcall a (.inl ha'), anchored_of_mentions hc hm hb (.inr (.inl hx))⟩
        · refine ⟨anchored_of_mentions hc hm hb (.inr (.inr ⟨j, _, hr, .inr ?_⟩)), hcall x (.inr hx)⟩
          exact List.mem_singleton.mpr rfl

/-- The callee of a call that has been bound is reachable, or was bound before. -/
theorem mem_of_link (h : (link q s site call result callee).result = .ok t) :
    (∃ e ∈ s.calls.edges, e.callee = callee) ∨ callee ∈ t.seen := by
  unfold link at h
  split at h
  · next hold =>
    obtain ⟨e, he, -, rfl⟩ := CallGraph.hasEdge_iff.mp hold
    exact .inl ⟨e, he, rfl⟩
  · obtain ⟨_, -, h⟩ := Traced.bind_ok_iff.mp h
    obtain ⟨u, hu, h⟩ := Traced.bind_ok_iff.mp h
    exact .inr ((seen_of_bind h).ge (mem_seen_of_reach hu).1)

theorem callTarget_covered (ha : q.program.CoveredBy R p') {heap : Heap} {receiver : Option ObjId}
    {found : Option MethodId} (h : callTarget q heap receiver call = .ok found) :
    callTarget (q.on p') heap receiver call = .ok found := by
  have hclass : ∀ ty, receiverClass? p' ty = receiverClass? q.program ty := fun ty => by
    unfold receiverClass?
    rw [ha.root]
  cases hk : call.kind with
  | static =>
    rw [callTarget_static hk] at h ⊢
    exact ha.resolve h
  | special =>
    unfold callTarget at h ⊢
    rw [hk] at h ⊢
    obtain ⟨o, ho, h⟩ := bind_ok_iff.mp h
    exact bind_ok_iff.mpr ⟨o, ho, ha.dispatch h⟩
  | virtual | interface =>
    have hvirtual : call.kind = .virtual ∨ call.kind = .interface := by simp [hk]
    rw [callTarget_eq_dispatch hvirtual] at h ⊢
    obtain ⟨x, hx, h⟩ := bind_ok_iff.mp h
    refine bind_ok_iff.mpr ⟨x, hx, ?_⟩
    dsimp only [Problem.on]
    rw [hclass]
    split at h
    · exact ha.dispatch h
    · exact h
  | dynamic =>
    unfold callTarget at h ⊢
    rw [hk] at h ⊢
    exact h

/-! ### Statements -/

theorem keeps_processStmt (ha : q.program.CoveredBy R p') (hc : q.program.Confines R) (hm : m ∈ R)
    (hb : q.program.body? m = some b) {st : Stmt} (hst : b.stmt? i = some st) (s : State) :
    Keeps q.program R s id (processStmt (q.on p') m s (i, st)) (processStmt q m s (i, st)) := by
  have hanchored : ∀ v, st.def? = some v ∨ v ∈ st.uses → Anchored q.program R (.var v) :=
    fun v hv => anchored_of_mentions hc hm hb (.inr (.inr ⟨i, st, hst, hv⟩))
  have hcounted : Tied q.program R s → Tied q.program R
      { s with statementsProcessed := s.statementsProcessed + 1 } :=
    fun hs => ⟨hs.node, hs.pending, hs.edge⟩
  cases hflow : st.directFlow? with
  | some f =>
    rw [processStmt_flow hflow, processStmt_flow hflow]
    refine mirrors_pure ?_ fun hs _ => (hcounted hs).flow (fun v k hv => ?_) (fun v k hv => ?_)
    · show s.seen ⊆ State.seen (State.flow _ f.1 f.2)
      unfold State.seen
      rw [State.flow_calls]
    · exact hanchored v (Stmt.mentions_of_directFlow hflow (.inl hv)) v k rfl
    · exact hanchored v (Stmt.mentions_of_directFlow hflow (.inr hv)) v k rfl
  | none =>
    by_cases hnew : ∃ x ty, st = .assign x (.new ty)
    · obtain ⟨x, ty, rfl⟩ := hnew
      refine mirrors_pure subset_rfl fun hs _ => Tied.send ?_ (hanchored x (.inl rfl))
      exact ⟨hs.node, hs.pending, hs.edge⟩
    by_cases hcall : ∃ result call, st = .invoke result call
    · obtain ⟨result, call, rfl⟩ := hcall
      have hvars : ∀ v, v ∈ call.args ∨ result = some v → Anchored q.program R (.var v) := by
        rintro v (hv | hv)
        · exact hanchored v (.inr (List.mem_append_right _ hv))
        · exact hanchored v (.inl hv)
      unfold processStmt
      dsimp only
      by_cases hk : call.kind = .static
      · rw [if_pos hk, if_pos hk]
        refine mirrors_lift_bind (fun _ h => callTarget_covered ha h) fun found _ => ?_
        cases found with
        | none => exact mirrors_log_bind (mirrors_pure subset_rfl fun hs _ => hcounted hs)
        | some callee =>
          exact (keeps_link ha hc hvars _ _ callee).after subset_rfl fun hs _ => hcounted hs
      · rw [if_neg hk, if_neg hk]
        exact mirrors_pure subset_rfl fun hs _ => hcounted hs
    rw [processStmt_idle hflow hnew hcall, processStmt_idle hflow hnew hcall]
    exact mirrors_pure subset_rfl fun hs _ => hcounted hs

theorem keeps_processMethod (ha : q.program.CoveredBy R p') (hc : q.program.Confines R) (hm : m ∈ R)
    (s : State) :
    Keeps q.program R s id (processMethod (q.on p') s m) (processMethod q s m) := by
  unfold processMethod
  refine mirrors_lift_bind (fun _ h => (ha.getBody hm).trans h) fun body hbody => ?_
  cases body with
  | none => exact mirrors_pure subset_rfl fun hs _ => hs
  | some b =>
    have hb := (Program.getBody_ok_iff.mp hbody).2
    refine mirrors_foldlM (fun t e he => ?_) s
    exact keeps_processStmt ha hc hm hb (Program.mem_indexed.mp he) t

/-! ### Whatever is reachable -/

theorem seen_processMethod (h : (processMethod q s m).result = .ok t) : s.seen ⊆ t.seen :=
  (keeps_processMethod (.refl _ q.program) q.program.confines_univ trivial s).grows t h

theorem keeps_processPending (ha : q.program.CoveredBy R p') (hc : q.program.Confines R) (fuel : Nat)
    (s : State) : Keeps q.program R s id (processPending (q.on p') fuel s)
      (processPending q fuel s) := by
  induction fuel generalizing s with
  | zero => exact mirrors_pure subset_rfl fun hs _ => hs
  | succ fuel ih =>
    unfold processPending
    split
    · exact mirrors_pure subset_rfl fun hs _ => hs
    · next m pending hcons =>
      have hmethod : Keeps q.program R s id (processMethod (q.on p') { s with pending } m)
          (processMethod q { s with pending } m) := by
        refine Mirrors.of_end (fun t ht => (seen_processMethod ht :)) fun hs t _ _ => ?_
        have hm : m ∈ R := hs.pending (hcons ▸ List.mem_cons_self)
        refine (keeps_processMethod ha hc hm _).after subset_rfl fun hs _ => ?_
        exact ⟨hs.node, fun hk => hs.pending (hcons ▸ List.mem_cons_of_mem m hk), hs.edge⟩
      exact hmethod.bind fun t _ => ih t

/-! ### Arrivals -/

theorem keeps_propagate (s : State) (n : Nat) (objects : ObjSet) :
    Keeps p R s (·.2) (propagate s n objects) (propagate s n objects) := by
  unfold propagate
  refine mirrors_lift_bind (fun _ h => h) fun pointer _ => ?_
  dsimp only
  split
  · exact mirrors_pure subset_rfl fun hs _ => hs
  · refine mirrors_log_bind ?_
    rw [State.foldl_enqueue]
    refine mirrors_pure subset_rfl fun hs _ => ⟨fun h => ?_, hs.pending, hs.edge⟩
    exact hs.node (PointerGraph.pointer?_addObjects.symm.trans h)

theorem seen_sendThis (p : Program) (callee : MethodId) (o : ObjId) (s : State) :
    (s.sendThis p callee o).seen = s.seen := by
  unfold State.sendThis
  split <;> rfl

theorem Tied.sendThis (hc : p.Confines R) (hm : callee ∈ R) (hs : Tied p R s) :
    Tied p R (s.sendThis p callee o) := by
  unfold State.sendThis
  split
  · next this hthis =>
    obtain ⟨b, hb, hthis⟩ := Option.bind_eq_some_iff.mp hthis
    exact hs.send (anchored_of_mentions hc hm hb (.inl hthis))
  · exact hs

theorem keeps_processCall_of (ha : q.program.CoveredBy R p') (hc : q.program.Confines R) (hm : m ∈ R)
    (hb : q.program.body? m = some b) (s : State)
    (hcallee : ∀ result call callee, b.stmt? i = some (.invoke result call) →
      callTarget q s.heap (some o) call = .ok (some callee) → callee ∈ R) :
    Keeps q.program R s id (processCall (q.on p') b m o s i) (processCall q b m o s i) := by
  unfold processCall
  refine mirrors_lift_bind (fun _ h => h) fun st hst => ?_
  split
  · next result call =>
    have hst := orDangling_eq_ok_iff.mp hst
    refine mirrors_lift_bind (fun _ h => callTarget_covered ha h) fun found htarget => ?_
    cases found with
    | none => exact mirrors_log_bind (mirrors_pure subset_rfl fun hs _ => hs)
    | some callee =>
      have hmem := hcallee result call callee hst htarget
      have hvars : ∀ v, v ∈ call.args ∨ result = some v → Anchored q.program R (.var v) := by
        intro v hv
        refine anchored_of_mentions hc hm hb (.inr (.inr ⟨i, _, hst, ?_⟩))
        exact hv.symm.imp id (List.mem_append_right _)
      refine mirrors_lift_bind (fun _ h => (ha.getBody hmem).trans h) fun body hbody => ?_
      obtain ⟨-, rfl⟩ := Program.getBody_ok_iff.mp hbody
      exact (keeps_link ha hc hvars (s.sendThis q.program callee o) _ callee).after
        (seen_sendThis q.program callee o s).ge fun hs _ => hs.sendThis hc hmem
  · exact mirrors_pure subset_rfl fun hs _ => hs

theorem seen_processCall (hb : q.program.body? m = some b)
    (h : (processCall q b m o s i).result = .ok t) : s.seen ⊆ t.seen :=
  (keeps_processCall_of (.refl _ q.program) q.program.confines_univ trivial hb s
    fun _ _ _ _ _ => trivial).grows t h

/-- A callee is looked at before it is bound, but it is reachable when it has been. -/
theorem keeps_processCall (ha : q.program.CoveredBy R p') (hc : q.program.Confines R) (hm : m ∈ R)
    (hb : q.program.body? m = some b) (s : State) (i : Nat) :
    Keeps q.program R s id (processCall (q.on p') b m o s i) (processCall q b m o s i) := by
  refine Mirrors.of_end (fun t ht => seen_processCall hb ht) fun hs t ht hR => ?_
  refine keeps_processCall_of ha hc hm hb s fun result call callee hst htarget => ?_
  unfold processCall at ht
  obtain ⟨st, hst', ht⟩ := Traced.bind_ok_iff.mp ht
  cases hst.symm.trans (orDangling_eq_ok_iff.mp hst')
  obtain ⟨found, htarget', ht⟩ := Traced.bind_ok_iff.mp ht
  cases htarget.symm.trans htarget'
  obtain ⟨body, hbody, hlink⟩ := Traced.bind_ok_iff.mp ht
  obtain ⟨-, rfl⟩ := Program.getBody_ok_iff.mp hbody
  rcases mem_of_link hlink with ⟨e, he, rfl⟩ | hmem
  · refine hs.edge (e := e) ?_
    change e ∈ (s.sendThis q.program e.callee o).calls.edges at he
    unfold State.sendThis at he
    split at he <;> exact he
  · exact hR hmem

theorem keeps_processArrival_of (ha : q.program.CoveredBy R p') (hc : q.program.Confines R)
    (hv : Anchored q.program R (.var v)) (s : State) (o : ObjId)
    (hvar : ∀ d, q.program.getVar v = .ok d → p'.getVar v = .ok d) :
    Keeps q.program R s id (processArrival (q.on p') v s o) (processArrival q v s o) := by
  unfold processArrival
  refine mirrors_lift_bind hvar fun d hd => ?_
  have hm : d.method ∈ R := hv v d.method rfl ⟨d, orDangling_eq_ok_iff.mp hd, rfl⟩
  refine mirrors_lift_bind (fun _ h => (ha.getBody hm).trans h) fun body hbody => ?_
  cases body with
  | none => exact mirrors_pure subset_rfl fun hs _ => hs
  | some b =>
    have hb := (Program.getBody_ok_iff.mp hbody).2
    dsimp only
    cases hu : b.usesOf v with
    | none => exact mirrors_pure subset_rfl fun hs _ => hs
    | some uses =>
      refine mirrors_lift_bind (fun _ h => h) fun _ _ => ?_
      refine (mirrors_foldlM (fun t i _ => keeps_processCall ha hc hm hb t i) _).after
        (seen_flows s _).ge fun hs _ => hs.flows fun f hf => ?_
      obtain ⟨kind, j, st, hst, -, hflow⟩ := (mem_accessFlows hu).mp hf
      have hanchored : ∀ P, f.1 = P ∨ f.2 = P → Anchored q.program R P := by
        rintro P hP w k rfl hk
        have hmentions := Stmt.mentions_of_accessFlow hflow hP
        exact anchored_of_mentions hc hm hb (.inr (.inr ⟨j, st, hst, hmentions⟩)) w k rfl hk
      exact ⟨hanchored f.1 (.inl rfl), hanchored f.2 (.inr rfl)⟩

theorem seen_processArrival (h : (processArrival q v s o).result = .ok t) : s.seen ⊆ t.seen :=
  (keeps_processArrival_of (.refl _ q.program) q.program.confines_univ (fun _ _ _ _ => trivial) s o
    fun _ hd => hd).grows t h

/-- The owner of a variable is looked up only to look at its body, which fails if there is no such
method. -/
theorem keeps_processArrival (ha : q.program.CoveredBy R p') (hc : q.program.Confines R)
    (hv : Anchored q.program R (.var v)) (s : State) (o : ObjId) :
    Keeps q.program R s id (processArrival (q.on p') v s o) (processArrival q v s o) := by
  refine Mirrors.of_end (fun t ht => seen_processArrival ht) fun _ t ht _ => ?_
  refine keeps_processArrival_of ha hc hv s o fun d hd => ?_
  obtain ⟨d', hd', ht⟩ := Traced.bind_ok_iff.mp ht
  cases hd.symm.trans hd'
  obtain ⟨_, hbody, -⟩ := Traced.bind_ok_iff.mp ht
  have hlt := (Program.getBody_ok_iff.mp hbody).1
  exact orDangling_eq_ok_iff.mpr (ha.var (orDangling_eq_ok_iff.mp hd) hlt)

theorem keeps_processArrivals_of (ha : q.program.CoveredBy R p') (hc : q.program.Confines R)
    (s : State) (n : Nat) (delta : ObjSet)
    (hn : ∀ P, s.graph.pointer? n = some P → Anchored q.program R P) :
    Keeps q.program R s id (processArrivals (q.on p') s n delta) (processArrivals q s n delta) := by
  unfold processArrivals
  refine mirrors_lift_bind (fun _ h => h) fun pointer hpointer => ?_
  have hanchored := hn pointer (orDangling_eq_ok_iff.mp hpointer)
  cases pointer with
  | var v => exact mirrors_foldlM (fun t o _ => keeps_processArrival ha hc hanchored t o) s
  | staticField f | instanceField o f | elements o =>
    exact mirrors_pure subset_rfl fun hs _ => hs

theorem seen_processArrivals {n : Nat} {delta : ObjSet}
    (h : (processArrivals q s n delta).result = .ok t) : s.seen ⊆ t.seen :=
  (keeps_processArrivals_of (.refl _ q.program) q.program.confines_univ s n delta
    fun _ _ _ _ _ _ => trivial).grows t h

theorem keeps_processArrivals (ha : q.program.CoveredBy R p') (hc : q.program.Confines R)
    (s : State) (n : Nat) (delta : ObjSet) :
    Keeps q.program R s id (processArrivals (q.on p') s n delta) (processArrivals q s n delta) :=
  .of_end (fun _ ht => seen_processArrivals ht) fun hs _ _ _ =>
    keeps_processArrivals_of ha hc s n delta fun _ hP => hs.node hP

/-! ### Runs -/

theorem keeps_step (ha : q.program.CoveredBy R p') (hc : q.program.Confines R) (s : State) :
    Keeps q.program R s (·.2) (step (q.on p') s) (step q s) := by
  unfold step
  have hsize : (q.on p').program.methods.size = q.program.methods.size := ha.size
  rw [hsize]
  refine (keeps_processPending ha hc _ s).bind fun t _ => ?_
  dsimp only [id]
  split
  · exact mirrors_pure subset_rfl fun hs _ => hs
  · next n objects work _ =>
    let popped : State := { t with work, workListEntries := t.workListEntries + 1 }
    have hpropagate : Keeps q.program R t (·.2) (propagate popped n objects)
        (propagate popped n objects) :=
      (keeps_propagate popped n objects).after subset_rfl fun ht _ => ⟨ht.node, ht.pending, ht.edge⟩
    refine hpropagate.bind ?_
    intro r _
    refine (keeps_processArrivals ha hc r.2 n r.1).bind fun u _ => ?_
    exact mirrors_pure subset_rfl fun hs _ => hs

theorem keeps_run (ha : q.program.CoveredBy R p') (hc : q.program.Confines R) (fuel : Nat)
    (s : State) : Keeps q.program R s id (run (q.on p') fuel s) (run q fuel s) := by
  induction fuel generalizing s with
  | zero => exact mirrors_pure subset_rfl fun hs _ => hs
  | succ fuel ih =>
    unfold run
    refine (keeps_step ha hc s).bind fun r _ => ?_
    obtain ⟨more, t⟩ := r
    cases more with
    | false => exact mirrors_pure subset_rfl fun hs _ => hs
    | true => exact ih t

end PointsTo
end ProgramAnalysis
