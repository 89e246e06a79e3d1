import ProgramAnalysis.PointsTo.Result
import ProgramAnalysis.Proofs.CallGraph.ClassHierarchy
import ProgramAnalysis.Proofs.PointsTo.Delivery

/-! Every callee that a call graph has is reachable in it: both searches add an edge and reach its
callee in one go. What they reach they look at, so that it exists. This holds of each graph that they
return, of whatever program. -/
namespace ProgramAnalysis

namespace CallGraph

variable {p : Program} {g : CallGraph} {m entry : MethodId} {e : CallEdge}

def Closed (g : CallGraph) : Prop := ∀ e ∈ g.edges, e.callee ∈ g.reachable

/-- What a search keeps: its graph is closed, and besides the entry it has reached methods that
exist. -/
structure Sound (p : Program) (entry : MethodId) (g : CallGraph) : Prop where
  closed : g.Closed
  reachable : ∀ m ∈ g.reachable, m = entry ∨ m.index < p.methods.size

theorem sound_start (p : Program) (entry : MethodId) :
    ((empty.addEntry entry).addReachable entry).Sound p entry where
  closed e he := by
    rw [addReachable_edges] at he
    exact absurd he (Array.not_mem_empty e)
  reachable m hm := by
    rcases mem_addReachable.mp hm with hm | rfl
    · exact absurd hm (Array.not_mem_empty m)
    · exact .inl rfl

/-- An edge to an existing method, whose callee is then reached, keeps `P`. -/
def Stable (p : Program) (P : CallGraph → Prop) : Prop :=
  ∀ g e, P g → e.callee.index < p.methods.size → P ((g.addEdge e).addReachable e.callee)

theorem stable_sound (p : Program) (entry : MethodId) : Stable p (Sound p entry) := by
  refine fun g e hg hcallee => ⟨fun e' he' => ?_, fun m hm => ?_⟩
  · rw [addReachable_edges] at he'
    rw [mem_addReachable, addEdge_reachable]
    rcases of_mem_addEdge he' with he' | rfl
    · exact .inl (hg.closed e' he')
    · exact .inr rfl
  · rw [mem_addReachable, addEdge_reachable] at hm
    rcases hm with hm | rfl
    · exact hg.reachable m hm
    · exact .inr hcallee

theorem stable_built (p : Program) : Stable p Built :=
  fun _ e hg _ => (hg.addEdge e).addReachable e.callee

/-- What is reachable stays reachable. -/
theorem stable_mem (p : Program) (m : MethodId) : Stable p (m ∈ ·.reachable) := by
  intro g e hm _
  refine mem_addReachable.mpr (.inl ?_)
  rw [addEdge_reachable]
  exact hm

theorem Closed.mem_callees (hg : g.Closed) {site : StmtRef} (h : m ∈ g.callees site) :
    m ∈ g.reachable := by
  obtain ⟨e, he, rfl⟩ := List.mem_map.mp h
  exact hg e (Array.mem_toList_iff.mp (List.mem_filter.mp he).1)

end CallGraph

open Traced

/-! ### The search of the class hierarchy -/

namespace ClassHierarchy

variable {p : Program} {s : Search} {entry : MethodId}

theorem dispatchAll_lt {subsignature : String} {cs : List ClassId} {found ms : List MethodId}
    (h : dispatchAll p subsignature cs found = .ok ms)
    (hfound : ∀ m ∈ found, m.index < p.methods.size) : ∀ m ∈ ms, m.index < p.methods.size := by
  induction cs generalizing found with
  | nil =>
    cases h
    exact hfound
  | cons c cs ih =>
    obtain ⟨target, htarget, h⟩ := bind_ok_iff.mp h
    cases target with
    | none => exact ih h hfound
    | some m =>
      refine ih h fun k hk => ?_
      split at hk
      · exact hfound k hk
      · rcases List.mem_append.mp hk with hk | hk
        · exact hfound k hk
        · rw [List.mem_singleton.mp hk]
          exact Program.lookupFrom_lt htarget

theorem targets_lt {call : Call} {ms : List MethodId} (h : targets p call = .ok ms) :
    ∀ m ∈ ms, m.index < p.methods.size := by
  have hlookup : ∀ {lookup : Except AnalysisError (Option MethodId)} {ms : List MethodId},
      (∀ m, lookup = .ok (some m) → m.index < p.methods.size) →
      (do return (← lookup).toList) = .ok ms → ∀ m ∈ ms, m.index < p.methods.size := by
    intro lookup ms hlt h m hm
    obtain ⟨target, htarget, h⟩ := bind_ok_iff.mp h
    cases h
    rw [Option.mem_toList.mp hm] at htarget
    exact hlt m htarget
  unfold targets at h
  split at h
  · exact hlookup (fun _ => Program.lookupFrom_lt) h
  · exact hlookup (fun _ => Program.lookupFrom_lt) h
  · exact dispatchAll_lt h nofun
  · exact dispatchAll_lt h nofun
  · cases h
    exact nofun

variable {P : CallGraph → Prop} (hP : CallGraph.Stable p P)
include hP

theorem Search.stable_link (kind : CallKind) (site : StmtRef) {callee : MethodId}
    (hs : P s.graph) (hcallee : callee.index < p.methods.size) :
    Ensures (s.link kind site callee) (P ·.graph) := by
  have hlinked := hP _ ⟨kind, site, callee⟩ hs hcallee
  unfold Search.link
  dsimp only
  split
  · next h =>
    unfold CallGraph.addReachable at hlinked
    rw [if_pos h] at hlinked
    exact ensures_pure.mpr hlinked
  · exact ensures_true.bind fun _ _ => ensures_pure.mpr hlinked

theorem Search.stable_visit (m : MethodId) (hs : P s.graph) :
    Ensures (Search.visit p s m) (P ·.graph) := by
  unfold Search.visit
  refine ensures_true.bind fun body _ => ?_
  cases body with
  | none => exact ensures_pure.mpr hs
  | some b =>
    refine Ensures.foldlM (fun s c _ hs => ?_) hs
    unfold Search.visitCall
    have hlt : Ensures (liftM (targets p c.2.2)) fun found =>
        ∀ m ∈ found, m.index < p.methods.size := fun _ h => targets_lt h
    refine hlt.bind fun found hfound => ?_
    have hloop : Ensures (found.foldlM (fun s callee => s.link c.2.2.kind ⟨m, c.1⟩ callee) s)
        (P ·.graph) :=
      Ensures.foldlM (fun s callee hc hs => stable_link hP _ _ hs (hfound callee hc)) hs
    dsimp only
    split
    · exact ensures_true.bind fun _ _ => hloop
    · exact hloop

theorem Search.stable_run (fuel : Nat) (hs : P s.graph) :
    Ensures (Search.run p fuel s) P := by
  induction fuel generalizing s with
  | zero => exact ensures_pure.mpr hs
  | succ fuel ih =>
    unfold Search.run
    split
    · exact ensures_pure.mpr hs
    · next m queue _ =>
      have hpop : P (Search.mk s.graph queue).graph := hs
      exact (stable_visit hP m hpop).bind fun t ht => ih ht

theorem stable_build (hstart : P ((CallGraph.empty.addEntry entry).addReachable entry)) :
    Ensures (build p entry) P := by
  unfold build
  refine (Search.stable_run hP _ hstart).bind fun g hg => ?_
  exact ensures_true.bind fun _ _ => ensures_pure.mpr hg

omit hP

/-- The search begins with the body of its entry. -/
theorem entry_lt {g : CallGraph} (h : (build p entry).result = .ok g) :
    entry.index < p.methods.size := by
  obtain ⟨_, hrun, _⟩ := Traced.bind_ok_iff.mp h
  obtain ⟨_, hvisit, _⟩ := Traced.bind_ok_iff.mp hrun
  obtain ⟨_, hbody, _⟩ := Traced.bind_ok_iff.mp hvisit
  exact (Program.getBody_ok_iff.mp hbody).1

end ClassHierarchy

/-! ### The points-to solver -/

namespace PointsTo

variable {q : Problem} {s : State} {entry : MethodId}

theorem ensures_reach (s : State) (m : MethodId) : Ensures (s.reach m) fun t =>
    t.graph = s.graph ∧ t.calls = s.calls.addReachable m ∧
      (¬ s.calls.isReachable m = true → t.pending = s.pending ++ [m]) := by
  unfold State.reach CallGraph.addReachable
  split
  · next h => exact ensures_pure.mpr ⟨rfl, rfl, absurd h⟩
  · exact ensures_true.bind fun _ _ => ensures_pure.mpr ⟨rfl, rfl, fun _ => rfl⟩

variable {P : CallGraph → Prop} (hP : CallGraph.Stable q.program P)
include hP

/-- A callee is looked at when it is bound. -/
theorem stable_link (site : StmtRef) (call : Call) (result : Option VarId) (callee : MethodId)
    (hs : P s.calls) :
    Ensures (link q s site call result callee) (P ·.calls) := by
  unfold link
  split
  · exact ensures_pure.mpr hs
  · refine ensures_true.bind fun _ _ => (ensures_reach _ callee).bind fun t ht => ?_
    have hlt : Ensures (liftM (q.program.getBody callee)) fun _ =>
        callee.index < q.program.methods.size := fun _ h => (Program.getBody_ok_iff.mp h).1
    refine hlt.bind fun body hlt => ?_
    have hlinked := hP _ ⟨call.kind, site, callee⟩ hs hlt
    rw [← ht.2.1] at hlinked
    cases body with
    | none => exact ensures_pure.mpr hlinked
    | some b =>
      refine ensures_pure.mpr ?_
      rw [State.bind_eq, State.flows_calls]
      exact hlinked

theorem stable_processStmt (m : MethodId) (indexed : Nat × Stmt)
    (hs : P s.calls) :
    Ensures (processStmt q m s indexed) (P ·.calls) := by
  obtain ⟨i, stmt⟩ := indexed
  unfold processStmt
  dsimp only
  split
  case h_5 result call =>
    split
    · refine ensures_true.bind fun callee _ => ?_
      cases callee with
      | none => exact ensures_true.bind fun _ _ => ensures_pure.mpr hs
      | some callee => exact stable_link hP _ call result callee hs
    · exact ensures_pure.mpr hs
  all_goals
    refine ensures_pure.mpr ?_
    simp only [State.send_calls, State.flow_calls]
    exact hs

theorem stable_processPending (fuel : Nat) (hs : P s.calls) :
    Ensures (processPending q fuel s) (P ·.calls) := by
  induction fuel generalizing s with
  | zero => exact ensures_pure.mpr hs
  | succ fuel ih =>
    unfold processPending
    split
    · exact ensures_pure.mpr hs
    · next m pending _ =>
      have hmethod : Ensures (processMethod q { s with pending } m)
          (P ·.calls) := by
        unfold processMethod
        refine ensures_true.bind fun body _ => ?_
        cases body with
        | none => exact ensures_pure.mpr hs
        | some b => exact Ensures.foldlM (fun s e _ hs => stable_processStmt hP m e hs) hs
      exact hmethod.bind fun t ht => ih ht

theorem stable_processCall (b : Body) (m : MethodId) (o : ObjId) (i : Nat)
    (hs : P s.calls) :
    Ensures (processCall q b m o s i) (P ·.calls) := by
  unfold processCall
  refine ensures_true.bind fun st _ => ?_
  split
  · next result call =>
    refine ensures_true.bind fun callee _ => ?_
    cases callee with
    | none => exact ensures_true.bind fun _ _ => ensures_pure.mpr hs
    | some callee =>
      refine ensures_true.bind fun body _ => ?_
      dsimp only
      refine stable_link hP _ call result callee ?_
      split
      · exact hs
      · exact hs
  · exact ensures_pure.mpr hs

theorem stable_processArrivals (n : Nat) (delta : ObjSet) (hs : P s.calls) :
    Ensures (processArrivals q s n delta) (P ·.calls) := by
  unfold processArrivals
  refine ensures_true.bind fun pointer _ => ?_
  split
  · next v =>
    refine Ensures.foldlM (fun s o _ hs => ?_) hs
    unfold processArrival
    refine ensures_true.bind fun decl _ => ?_
    dsimp only
    refine ensures_true.bind fun body _ => ?_
    cases body with
    | none => exact ensures_pure.mpr hs
    | some b =>
      dsimp only
      split
      · exact ensures_pure.mpr hs
      · next uses _ =>
        have hflows : (s.flows (accessFlows b uses o)).calls = s.calls := State.flows_calls
        refine ensures_true.bind fun _ _ => ?_
        refine Ensures.foldlM (fun s i _ hs => stable_processCall hP b _ o i hs) ?_
        show P (s.flows (accessFlows b uses o)).calls
        rw [hflows]
        exact hs
  · exact ensures_pure.mpr hs

theorem stable_step (hs : P s.calls) :
    Ensures (step q s) (P ·.2.calls) := by
  unfold step
  refine (stable_processPending hP _ hs).bind fun t ht => ?_
  split
  · exact ensures_pure.mpr ht
  · next n objects work _ =>
    have hpropagate : Ensures (propagate { t with work, workListEntries := t.workListEntries + 1 }
        n objects) (P ·.2.calls) := by
      unfold propagate
      refine ensures_true.bind fun pointer _ => ?_
      dsimp only
      split
      · exact ensures_pure.mpr ht
      · refine ensures_true.bind fun _ _ => ensures_pure.mpr ?_
        rw [State.foldl_enqueue]
        exact ht
    refine hpropagate.bind fun r hr => ?_
    exact (stable_processArrivals hP n r.1 hr).bind fun u hu => ensures_pure.mpr hu

theorem stable_run (fuel : Nat) (hs : P s.calls) :
    Ensures (run q fuel s) (P ·.calls) := by
  induction fuel generalizing s with
  | zero => exact ensures_pure.mpr hs
  | succ fuel ih =>
    unfold run
    refine (stable_step hP hs).bind fun r hr => ?_
    dsimp only
    split
    · exact ih hr
    · exact ensures_pure.mpr hr

omit hP

/-- The solver begins with its entry pending. -/
theorem ensures_start (q : Problem) : Ensures (start q .initial) fun s => ∃ entry,
    q.entry.or q.program.entry = some entry ∧ s.graph = .empty ∧
      s.calls = (CallGraph.empty.addEntry entry).addReachable entry ∧ s.pending = [entry] := by
  unfold start
  rw [if_neg (by simp [State.initial])]
  split
  · exact fun _ h => nomatch h
  · next entry hentry =>
    refine ensures_true.bind fun _ _ => ?_
    have hnew : ¬ (State.initial.calls.addEntry entry).isReachable entry = true := by
      simp [State.initial, CallGraph.isReachable, CallGraph.empty, CallGraph.addEntry]
    refine (ensures_reach _ entry).bind fun t ht => ensures_pure.mpr ⟨entry, hentry, ?_⟩
    exact ⟨ht.1, ht.2.1, ht.2.2 hnew⟩

theorem pending_lt {r : Bool × State} (hpending : s.pending = [entry])
    (h : (step q s).result = .ok r) : entry.index < q.program.methods.size := by
  obtain ⟨_, hprocess, _⟩ := Traced.bind_ok_iff.mp h
  simp only [processPending, hpending] at hprocess
  obtain ⟨_, hmethod, _⟩ := Traced.bind_ok_iff.mp hprocess
  obtain ⟨_, hbody, _⟩ := Traced.bind_ok_iff.mp hmethod
  exact (Program.getBody_ok_iff.mp hbody).1

theorem stable_solve (q : Problem) : Ensures (solve q .initial) fun s => ∃ entry,
    q.entry.or q.program.entry = some entry ∧ entry.index < q.program.methods.size ∧
      ∀ P, CallGraph.Stable q.program P →
        P ((CallGraph.empty.addEntry entry).addReachable entry) → P s.calls := by
  intro u h
  obtain ⟨s, hstart, h⟩ := Traced.bind_ok_iff.mp h
  obtain ⟨t, hrun, h⟩ := Traced.bind_ok_iff.mp h
  cases h
  obtain ⟨entry, hentry, -, hcalls, hpending⟩ := ensures_start q s hstart
  obtain ⟨_, hstep, -⟩ := Traced.bind_ok_iff.mp hrun
  refine ⟨entry, hentry, pending_lt hpending hstep, fun P hP hentry => ?_⟩
  exact stable_run hP _ (hcalls ▸ hentry) _ hrun

end PointsTo

/-! ### The call graphs of a program -/

/-- The call graphs that the two searches return. -/
inductive CallGraph.Found (p : Program) : CallGraph → Prop
  | hierarchy {entry : MethodId} {g : CallGraph} :
      (ClassHierarchy.build p entry).result = .ok g → Found p g
  | pointsTo {q : PointsTo.Problem} {r : PointsTo.Result} : q.program = p →
      (PointsTo.analyze q).result = .ok r → Found p r.calls

theorem CallGraph.Found.of_stable {p : Program} {g : CallGraph} (h : Found p g) :
    ∃ entry, entry.index < p.methods.size ∧ ∀ P, Stable p P →
      P ((empty.addEntry entry).addReachable entry) → P g := by
  cases h with
  | hierarchy h =>
    exact ⟨_, ClassHierarchy.entry_lt h, fun P hP hentry => ClassHierarchy.stable_build hP hentry _ h⟩
  | pointsTo hq h =>
    obtain ⟨s, hsolve, h⟩ := Traced.bind_ok_iff.mp h
    cases h
    obtain ⟨entry, -, hstable⟩ := PointsTo.stable_solve _ s hsolve
    exact ⟨entry, hq ▸ hstable⟩

theorem CallGraph.Found.sound {p : Program} {g : CallGraph} (h : Found p g) :
    ∃ entry, g.Sound p entry ∧ entry.index < p.methods.size := by
  obtain ⟨entry, hlt, hstable⟩ := h.of_stable
  exact ⟨entry, hstable _ (stable_sound p entry) (sound_start p entry), hlt⟩

theorem CallGraph.Found.built {p : Program} {g : CallGraph} (h : Found p g) : g.Built := by
  obtain ⟨entry, _, hstable⟩ := h.of_stable
  exact hstable _ (stable_built p) ((Built.empty.addEntry entry).addReachable entry)

theorem CallGraph.Found.closed {p : Program} {g : CallGraph} (h : Found p g) : g.Closed := by
  obtain ⟨_, hsound, _⟩ := h.sound
  exact hsound.closed

theorem CallGraph.Found.lt {p : Program} {g : CallGraph} (h : Found p g) {m : MethodId}
    (hm : m ∈ g.reachable) : m.index < p.methods.size := by
  obtain ⟨entry, hsound, hlt⟩ := h.sound
  rcases hsound.reachable m hm with rfl | hm
  · exact hlt
  · exact hm

end ProgramAnalysis
