import ProgramAnalysis.Pipeline.Run
import ProgramAnalysis.Proofs.CallGraph.Closed
import ProgramAnalysis.Proofs.Dataflow.Cfg
import ProgramAnalysis.Proofs.PointsTo.Receiver

/-! What the analyses log. The methods that an event is about exist, so that every event of a run has
a text. This holds of runs that fail as well: what has been logged by then can be told. -/
namespace ProgramAnalysis

namespace Event

/-- The method whose signature the text of the event contains. -/
def subject? : Event → Option MethodId
  | .pointsToStarted m | .methodReached m | .callEdgeFound _ m | .hierarchyReached m
  | .deadCodeFound m _ _ | .pipelineStarted m _ | .methodAnalyzed m _ _ => some m
  | _ => none

def Tellable (p : Program) (e : Event) : Prop :=
  ∀ m, e.subject? = some m → m.index < p.methods.size

variable {p : Program} {e : Event} {m : MethodId}

theorem tellable_of_subject (he : e.subject? = some m) (hlt : m.index < p.methods.size) :
    e.Tellable p := by
  intro k hk
  rw [he] at hk
  cases hk
  exact hlt

theorem tellable_of_none (he : e.subject? = none) : e.Tellable p := by
  intro k hk
  rw [he] at hk
  cases hk

theorem Tellable.text_ok (hp : p.Accepted) (h : e.Tellable p) : ∃ line, e.text p = .ok line := by
  have hmessage : ∃ message, e.message p = .ok message := by
    cases e with
    | pointsToStarted m | methodReached m | callEdgeFound _ m | hierarchyReached m
    | deadCodeFound m _ _ | pipelineStarted m _ | methodAnalyzed m _ _ =>
      obtain ⟨signature, hsignature⟩ := hp.getSignature_ok (h m rfl)
      exact ⟨_, bind_ok_iff.mpr ⟨signature, hsignature, rfl⟩⟩
    | pointerGrew | noStaticTarget | noReceiverTarget | pointsToDone | noHierarchyTarget
    | hierarchyDone | callsLinked | fixpointFound | pipelineDone => exact ⟨_, rfl⟩
  obtain ⟨message, hmessage⟩ := hmessage
  exact ⟨_, bind_ok_iff.mpr ⟨message, hmessage, rfl⟩⟩

end Event

open Traced Event

/-! ### The points-to solver -/

namespace PointsTo

variable {q : Problem} {s : State} {m callee : MethodId} {site : StmtRef} {call : Call}
  {result : Option VarId}

theorem callTarget_lt {heap : Heap} {receiver : Option ObjId}
    (h : callTarget q heap receiver call = .ok (some m)) : m.index < q.program.methods.size := by
  cases hk : call.kind with
  | static =>
    rw [callTarget_static hk] at h
    exact Program.lookupFrom_lt h
  | special =>
    unfold callTarget at h
    rw [hk] at h
    obtain ⟨_, _, h⟩ := ProgramAnalysis.bind_ok_iff.mp h
    exact Program.lookupFrom_lt h
  | virtual | interface =>
    rw [callTarget_eq_dispatch (by simp [hk])] at h
    obtain ⟨o, _, h⟩ := ProgramAnalysis.bind_ok_iff.mp h
    split at h
    · exact Program.lookupFrom_lt h
    · cases h
  | dynamic =>
    unfold callTarget at h
    rw [hk] at h
    cases h

theorem logs_reach (hm : m.index < q.program.methods.size) :
    (s.reach m).Logs (Tellable q.program) := by
  unfold State.reach
  split
  · exact logs_pure
  · exact logs_log_bind (tellable_of_subject rfl hm) logs_pure

theorem logs_link (hcallee : callee.index < q.program.methods.size) :
    (link q s site call result callee).Logs (Tellable q.program) := by
  unfold link
  split
  · exact logs_pure
  · refine logs_log_bind (tellable_of_subject rfl hcallee) ?_
    refine (logs_reach hcallee).bind fun t _ => logs_lift_bind fun body _ => ?_
    cases body <;> exact logs_pure

theorem logs_processStmt (m : MethodId) (s : State) (indexed : Nat × Stmt) :
    (processStmt q m s indexed).Logs (Tellable q.program) := by
  obtain ⟨i, st⟩ := indexed
  unfold processStmt
  dsimp only
  split
  case h_5 result call =>
    split
    · refine logs_lift_bind fun target htarget => ?_
      cases target with
      | none => exact logs_log_bind (tellable_of_none rfl) logs_pure
      | some callee => exact logs_link (callTarget_lt htarget)
    · exact logs_pure
  all_goals exact logs_pure

theorem logs_processPending (fuel : Nat) (s : State) :
    (processPending q fuel s).Logs (Tellable q.program) := by
  induction fuel generalizing s with
  | zero => exact logs_pure
  | succ fuel ih =>
    unfold processPending
    split
    · exact logs_pure
    · next m pending _ =>
      have hmethod : (processMethod q { s with pending } m).Logs (Tellable q.program) := by
        unfold processMethod
        refine logs_lift_bind fun body _ => ?_
        cases body with
        | none => exact logs_pure
        | some b => exact Logs.foldlM (fun s indexed _ => logs_processStmt m s indexed) _
      exact hmethod.bind fun t _ => ih t

theorem logs_propagate (s : State) (n : Nat) (objects : ObjSet) :
    (propagate s n objects).Logs (Tellable q.program) := by
  unfold propagate
  refine logs_lift_bind fun pointer _ => ?_
  dsimp only
  split
  · exact logs_pure
  · exact logs_log_bind (tellable_of_none rfl) logs_pure

theorem logs_processCall (b : Body) (m : MethodId) (o : ObjId) (s : State) (i : Nat) :
    (processCall q b m o s i).Logs (Tellable q.program) := by
  unfold processCall
  refine logs_lift_bind fun st _ => ?_
  split
  · refine logs_lift_bind fun target htarget => ?_
    cases target with
    | none => exact logs_log_bind (tellable_of_none rfl) logs_pure
    | some callee => exact logs_lift_bind fun _ _ => logs_link (callTarget_lt htarget)
  · exact logs_pure

theorem logs_processArrivals (s : State) (n : Nat) (delta : ObjSet) :
    (processArrivals q s n delta).Logs (Tellable q.program) := by
  unfold processArrivals
  refine logs_lift_bind fun pointer _ => ?_
  split
  · next v =>
    refine Logs.foldlM (fun s o _ => ?_) s
    unfold processArrival
    refine logs_lift_bind fun decl _ => logs_lift_bind fun body _ => ?_
    cases body with
    | none => exact logs_pure
    | some b =>
      dsimp only
      split
      · exact logs_pure
      · refine logs_lift_bind fun _ _ => ?_
        exact Logs.foldlM (fun s i _ => logs_processCall b _ o s i) _
  · exact logs_pure

theorem logs_step (s : State) : (step q s).Logs (Tellable q.program) := by
  unfold step
  refine (logs_processPending _ s).bind fun t _ => ?_
  split
  · exact logs_pure
  · refine (logs_propagate _ _ _).bind fun r _ => ?_
    exact (logs_processArrivals _ _ _).bind fun _ _ => logs_pure

theorem logs_run (fuel : Nat) (s : State) : (run q fuel s).Logs (Tellable q.program) := by
  induction fuel generalizing s with
  | zero => exact logs_pure
  | succ fuel ih =>
    unfold run
    refine (logs_step s).bind fun r _ => ?_
    dsimp only
    split
    · exact ih r.2
    · exact logs_pure

theorem logs_analyze (hentry : ∀ m, q.entry.or q.program.entry = some m →
    m.index < q.program.methods.size) : (analyze q).Logs (Tellable q.program) := by
  have hstart : (start q .initial).Logs (Tellable q.program) := by
    unfold start
    split
    · exact logs_pure
    · split
      · exact logs_fail
      · next entry hentry' =>
        have hlt := hentry entry hentry'
        exact logs_log_bind (tellable_of_subject rfl hlt)
          ((logs_reach hlt).bind fun _ _ => logs_pure)
  unfold analyze solve
  refine Logs.bind (hstart.bind fun s _ => ?_) fun _ _ => logs_pure
  exact (logs_run _ s).bind fun t _ => logs_log_bind (tellable_of_none rfl) logs_pure

end PointsTo

/-! ### The search of the class hierarchy -/

namespace ClassHierarchy

variable {p : Program}

theorem Search.logs_visit (s : Search) (m : MethodId) :
    (Search.visit p s m).Logs (Tellable p) := by
  have hlink : ∀ (s : Search) (kind : CallKind) (site : StmtRef) {callee : MethodId},
      callee.index < p.methods.size → (s.link kind site callee).Logs (Tellable p) := by
    intro s kind site callee hlt
    unfold Search.link
    dsimp only
    split
    · exact logs_pure
    · exact logs_log_bind (tellable_of_subject rfl hlt) logs_pure
  unfold Search.visit
  refine logs_lift_bind fun body _ => ?_
  cases body with
  | none => exact logs_pure
  | some b =>
    refine Logs.foldlM (fun s c _ => ?_) s
    unfold Search.visitCall
    refine logs_lift_bind fun found hfound => ?_
    have hloop := Logs.foldlM (fun s callee hc =>
      hlink s c.2.2.kind ⟨m, c.1⟩ (targets_lt hfound callee hc)) s
    dsimp only
    split
    · exact logs_log_bind (tellable_of_none rfl) hloop
    · exact hloop

theorem logs_build (entry : MethodId) : (build p entry).Logs (Tellable p) := by
  have hrun : ∀ (fuel : Nat) (s : Search), (Search.run p fuel s).Logs (Tellable p) := by
    intro fuel
    induction fuel with
    | zero => exact fun s => logs_pure
    | succ fuel ih =>
      intro s
      unfold Search.run
      split
      · exact logs_pure
      · exact (Search.logs_visit _ _).bind fun t _ => ih t
  unfold build
  exact (hrun _ _).bind fun g _ => logs_log_bind (tellable_of_none rfl) logs_pure

end ClassHierarchy

/-! ### Data flow -/

theorem Icfg.logs_build {p : Program} (calls : CallGraph) :
    (Icfg.build p calls).Logs (Tellable p) := by
  unfold Icfg.build
  exact logs_lift_bind fun _ _ => logs_log_bind (tellable_of_none rfl) logs_pure

theorem Constant.logs_solveIcfg {p : Program} (g : Icfg) :
    (Constant.solveIcfg p g).Logs (Tellable p) := by
  unfold Constant.solveIcfg
  exact logs_lift_bind fun _ _ => logs_log_bind (tellable_of_none rfl) logs_pure

theorem Constant.logs_analyze {p : Program} (m : MethodId) :
    (Constant.analyze p m).Logs (Tellable p) := by
  unfold Constant.analyze Constant.solveCfg
  refine logs_lift_bind fun c _ => Logs.bind ?_ fun _ _ => logs_pure
  exact logs_lift_bind fun _ _ => logs_log_bind (tellable_of_none rfl) logs_pure

theorem Liveness.logs_solveCfg {p : Program} (c : Cfg) :
    (Liveness.solveCfg p c).Logs (Tellable p) := by
  unfold Liveness.solveCfg
  exact logs_log_bind (tellable_of_none rfl) logs_pure

theorem DeadCode.logs_detect {p : Program} {c : Cfg} (hlt : c.method.index < p.methods.size)
    (constants : Constant.Facts) (live : Liveness.Facts) :
    (DeadCode.detect p c constants live).Logs (Tellable p) := by
  unfold DeadCode.detect
  exact logs_log_bind (tellable_of_subject rfl hlt) logs_pure

/-! ### A whole run -/

namespace Pipeline

variable {c : Config} {p : Program} {m entry : MethodId} {cfg : Cfg} {constants : Constant.Facts}

theorem cfg_of_methodConstants {inter : Option Constant.Facts}
    (h : (methodConstants p inter m).result = .ok (cfg, constants)) :
    ∃ b, p.body? m = some b ∧ cfg = Cfg.ofBody m b := by
  unfold methodConstants at h
  split at h
  · obtain ⟨cfg, hcfg, h⟩ := Traced.bind_ok_iff.mp h
    cases h
    exact Cfg.build_ok_iff.mp hcfg
  · obtain ⟨cfg, hcfg, h⟩ := Traced.bind_ok_iff.mp h
    obtain ⟨_, _, h⟩ := Traced.bind_ok_iff.mp h
    cases h
    exact Cfg.build_ok_iff.mp hcfg

theorem logs_analyzeMethod (inter : Option Constant.Facts) (m : MethodId) :
    (analyzeMethod c p inter m).Logs (Tellable p) := by
  have hconstants : (methodConstants p inter m).Logs (Tellable p) := by
    unfold methodConstants
    split
    · exact logs_lift_bind fun _ _ => logs_pure
    · exact Constant.logs_analyze m
  unfold analyzeMethod
  refine hconstants.bind fun r hr => ?_
  obtain ⟨b, hb, hcfg⟩ := cfg_of_methodConstants hr
  have hlt := Program.lt_of_body? hb
  have hdead : (deadCode c p r.1 r.2).Logs (Tellable p) := by
    unfold deadCode
    rw [hcfg]
    split
    · exact (Liveness.logs_solveCfg _).bind fun live _ => DeadCode.logs_detect hlt r.2 live
    · exact logs_pure
  refine hdead.bind fun dead _ => logs_lift_bind fun signature _ => ?_
  exact logs_log_bind (tellable_of_subject rfl hlt) logs_pure

theorem logs_run (hentry : ∀ m, entryOf c p = .ok m → m.index < p.methods.size) :
    (run c p).Logs (Tellable p) := by
  unfold run
  refine logs_lift_bind fun _ _ => logs_lift_bind fun entry he => ?_
  refine logs_log_bind (tellable_of_subject rfl (hentry entry he)) ?_
  have hcalls : (callGraph c p entry).Logs (Tellable p) := by
    unfold callGraph
    split
    · exact (ClassHierarchy.logs_build entry).bind fun _ _ => logs_pure
    · refine Logs.bind (PointsTo.logs_analyze fun m hm => ?_) fun _ _ => logs_pure
      cases hm
      exact hentry entry he
  refine hcalls.bind fun r _ => logs_lift_bind fun methods _ => Logs.bind ?_ fun inter _ => ?_
  · unfold interConstants
    split
    · exact (Icfg.logs_build _).bind fun g _ => (Constant.logs_solveIcfg g).bind fun _ _ => logs_pure
    · exact logs_pure
  · refine (Logs.mapM fun m _ => logs_analyzeMethod inter m).bind fun reports _ => ?_
    exact logs_log_bind (tellable_of_none rfl) logs_pure

end Pipeline
end ProgramAnalysis
