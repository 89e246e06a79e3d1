import ProgramAnalysis.Proofs.PointsTo.Link

/-! What the solver does for one statement: a flow at once, or one for each object that arrives at
the base of an access. Facts that satisfy a statement admit both. `StmtDone` and `ArrivalDone` say
what has been done, and stay true as a state grows. -/
namespace ProgramAnalysis

namespace Stmt

/-- The flow that a statement causes by itself. -/
def directFlow? : Stmt → Option (Pointer × Pointer)
  | .assign x (.var y) => some (.var y, .var x)
  | .assign x (.field none f) => some (.staticField f, .var x)
  | .store (.field none f) y => some (.var y, .staticField f)
  | _ => none

/-- The flow that an access causes when its base may refer to `o`. -/
def accessFlow? (o : ObjId) : Stmt → Option (Pointer × Pointer)
  | .assign x (.field (some _) f) => some (.instanceField o f, .var x)
  | .assign x (.element _ _) => some (.elements o, .var x)
  | .store (.field (some _) f) y => some (.var y, .instanceField o f)
  | .store (.element _ _) y => some (.var y, .elements o)
  | _ => none

end Stmt

namespace PointsTo

variable {q : Problem} {S : Facts} {s t : State} {site : StmtRef} {st : Stmt} {m : MethodId}
  {o : ObjId} {v : VarId} {kind : UseKind} {f : Pointer × Pointer} {h : Heap}

/-! ### Flows that facts admit -/

theorem admits_directFlow (hp : Serves q S) (hS : S.StmtHolds q site st)
    (hs : q.program.stmt? site = some st) (hsite : site.method ∈ S.reachable)
    (hf : st.directFlow? = some f) : Admits q S h f.1 f.2 := by
  have huse : ∀ {y}, y ∈ st.uses → y.index < q.program.vars.size := fun hy =>
    (hp.accepted.owns_use hs hy).lt
  have hdef : ∀ {x}, st.def? = some x →
      x.index < q.program.vars.size ∧ Live q S (.var x) := fun {x} hx => by
    have howns := hp.accepted.owns_def hs hx
    exact ⟨howns.lt, Live.of_owns howns hsite (Program.lt_of_stmt? hs)⟩
  unfold Stmt.directFlow? at hf
  split at hf
  case h_1 x y =>
    cases hf
    refine ⟨huse (by simp [Stmt.uses, Expr.vars]), (hdef rfl).1, (hdef rfl).2, ?_⟩
    rintro l k ⟨⟩ ⟨⟩
    exact hS
  case h_2 x g =>
    cases hf
    refine ⟨⟨site, _, hs, rfl⟩, (hdef rfl).1, (hdef rfl).2, ?_⟩
    rintro l k ⟨⟩ ⟨⟩
    exact hS
  case h_3 g y =>
    cases hf
    refine ⟨huse (by simp [Stmt.uses]), ⟨site, _, hs, rfl⟩, fun w hw => (by cases hw), ?_⟩
    rintro l k ⟨⟩ ⟨⟩
    exact hS
  case h_4 => cases hf

theorem admits_accessFlow (hp : Serves q S) (hS : S.StmtHolds q site st)
    (hs : q.program.stmt? site = some st) (hsite : site.method ∈ S.reachable)
    (ht : st.through? = some (kind, v)) (hj : Justified q S h (.var v) o)
    (hf : st.accessFlow? o = some f) : Admits q S h f.1 f.2 := by
  obtain ⟨l, a, hl, ha, hmem⟩ := hj.fact
  cases hl
  have ho : o.index < h.size := by
    obtain ⟨x, hx, _⟩ := Option.map_eq_some_iff.mp ha
    exact (Array.getElem?_eq_some_iff.mp hx).1
  have huse : ∀ {y}, y ∈ st.uses → y.index < q.program.vars.size := fun hy =>
    (hp.accepted.owns_use hs hy).lt
  have hdef : ∀ {x}, st.def? = some x →
      x.index < q.program.vars.size ∧ Live q S (.var x) := fun {x} hx => by
    have howns := hp.accepted.owns_def hs hx
    exact ⟨howns.lt, Live.of_owns howns hsite (Program.lt_of_stmt? hs)⟩
  unfold Stmt.accessFlow? at hf
  split at hf
  case h_1 x y g =>
    cases hf
    cases ht
    refine ⟨⟨ho, site, _, hs, rfl⟩, (hdef rfl).1, (hdef rfl).2, ?_⟩
    rintro l k hl ⟨⟩
    simp only [Heap.location?, ha, Option.map_some, Option.some.injEq] at hl
    rw [← hl]
    exact hS a hmem
  case h_2 x y i =>
    cases hf
    cases ht
    refine ⟨ho, (hdef rfl).1, (hdef rfl).2, ?_⟩
    rintro l k hl ⟨⟩
    simp only [Heap.location?, ha, Option.map_some, Option.some.injEq] at hl
    rw [← hl]
    exact hS a hmem
  case h_3 x g y =>
    cases hf
    cases ht
    refine ⟨huse (by simp [Stmt.uses]), ⟨ho, site, _, hs, rfl⟩, fun w hw => (by cases hw), ?_⟩
    rintro l k ⟨⟩ hk
    simp only [Heap.location?, ha, Option.map_some, Option.some.injEq] at hk
    rw [← hk]
    exact hS a hmem
  case h_4 x i y =>
    cases hf
    cases ht
    refine ⟨huse (by simp [Stmt.uses]), ho, fun w hw => (by cases hw), ?_⟩
    rintro l k ⟨⟩ hk
    simp only [Heap.location?, ha, Option.map_some, Option.some.injEq] at hk
    rw [← hk]
    exact hS a hmem
  case h_5 => cases hf

/-! ### What has been done -/

/-- The statement of a reached method has been processed. -/
structure StmtDone (q : Problem) (s : State) (site : StmtRef) (st : Stmt) : Prop where
  flow : ∀ {f}, st.directFlow? = some f → s.graph.Flows f.1 f.2
  allocated : ∀ {x ty}, st = .assign x (.new ty) →
    ∃ o, s.heap.abstract? q.model o = some (abstractObject q.model site ty) ∧ s.Reaches (.var x) o
  called : ∀ {result call m}, st = .invoke result call → call.kind = .static →
    q.program.resolve call.target.cls call.target.subsignature = .ok (some m) →
    ⟨call.kind, site, m⟩ ∈ s.calls.edges

/-- The statement has been processed for an object `o` at the variable that it goes through. -/
structure ArrivalDone (q : Problem) (s : State) (o : ObjId) (site : StmtRef) (st : Stmt) :
    Prop where
  flow : ∀ {f}, st.accessFlow? o = some f → s.graph.Flows f.1 f.2
  called : ∀ {result call}, st = .invoke result call →
    ∃ x, s.heap.object? o = some x ∧ ∀ m, RunsOn q.program call x.ty m →
      ⟨call.kind, site, m⟩ ∈ s.calls.edges ∧
      ∀ b this, q.program.body? m = some b → b.this = some this → s.Reaches (.var this) o

theorem StmtDone.mono (hst : Grows s t) (hd : StmtDone q s site st) : StmtDone q t site st where
  flow hf := hst.flows (hd.flow hf)
  allocated he := by
    obtain ⟨o, ha, hr⟩ := hd.allocated he
    exact ⟨o, Heap.abstract?_mono hst.heap ha, hst.reaches hr⟩
  called he hk hr := hst.edges (hd.called he hk hr)

theorem ArrivalDone.mono (hst : Grows s t) (hd : ArrivalDone q s o site st) :
    ArrivalDone q t o site st where
  flow hf := hst.flows (hd.flow hf)
  called he := by
    obtain ⟨x, hx, hall⟩ := hd.called he
    refine ⟨x, hst.heap hx, fun m hm => ?_⟩
    obtain ⟨hedge, hthis⟩ := hall m hm
    exact ⟨hst.edges hedge, fun b this hb ht => hst.reaches (hthis b this hb ht)⟩

/-! ### Processing a statement -/

theorem Inv.count (hs : Inv q S s) (n : Nat) : Inv q S { s with statementsProcessed := n } :=
  ⟨⟨hs.wellFormed.graph, hs.wellFormed.work_lt⟩, hs.heap, hs.allocated, hs.named, hs.carried,
    hs.justified, hs.admitted, hs.edge, hs.reachable, hs.nodup, hs.pending⟩

theorem Progress.count (s : State) (n : Nat) : Progress q s { s with statementsProcessed := n } :=
  ⟨⟨s.heap.le_refl, id, Iff.rfl, id, id, ⟨[], by simp, by simp⟩, id⟩, .inl⟩

theorem processStmt_flow {i : Nat} (hf : st.directFlow? = some f) : processStmt q m s (i, st) =
    pure (State.flow { s with statementsProcessed := s.statementsProcessed + 1 } f.1 f.2) := by
  unfold Stmt.directFlow? at hf
  split at hf <;> cases hf <;> rfl

/-- All other statements are only counted. -/
theorem processStmt_idle {i : Nat} (hflow : st.directFlow? = none)
    (hnew : ¬ ∃ x ty, st = .assign x (.new ty)) (hcall : ¬ ∃ result call, st = .invoke result call) :
    processStmt q m s (i, st) =
      pure { s with statementsProcessed := s.statementsProcessed + 1 } := by
  unfold processStmt
  dsimp only
  split
  case h_1 x ty => exact absurd ⟨x, ty, rfl⟩ hnew
  case h_5 result call => exact absurd ⟨result, call, rfl⟩ hcall
  case h_6 => rfl
  all_goals cases hflow

theorem callTarget_static {receiver : Option ObjId} {call : Call} (hk : call.kind = .static) :
    callTarget q h receiver call =
      q.program.resolve call.target.cls call.target.subsignature := by
  unfold callTarget
  rw [hk]

section ProcessStmt

variable {entry : MethodId} {i : Nat}

theorem Inv.processFlow (hp : Serves q S) (hS : S.Satisfies q entry) (hs : Inv q S s)
    (hm : m ∈ S.reachable) (hstmt : q.program.stmt? ⟨m, i⟩ = some st)
    (hf : st.directFlow? = some f) : Traced.Returns (processStmt q m s (i, st)) fun t =>
      Inv q S t ∧ Progress q s t ∧ StmtDone q t ⟨m, i⟩ st := by
  have hs' := hs.count (s.statementsProcessed + 1)
  have hprog : Progress q s _ := Progress.count s (s.statementsProcessed + 1)
  rw [processStmt_flow hf, Traced.returns_pure]
  have hadmits := admits_directFlow (h := s.heap) hp (hS.stmt hm hstmt) hstmt hm hf
  refine ⟨hs'.flow hadmits, hprog.trans (.of_edges (.flow hs'.wellFormed f.1 f.2) (by simp)), ?_⟩
  refine ⟨fun hf' => ?_, fun he => ?_, fun he => ?_⟩
  · rw [hf] at hf'
    cases hf'
    exact hs'.wellFormed.flows_flow.mpr (.inr ⟨rfl, rfl⟩)
  · subst he
    cases hf
  · subst he
    cases hf

theorem Inv.processNew {x : VarId} {ty : Ty} (hp : Serves q S) (hS : S.Satisfies q entry)
    (hs : Inv q S s) (hm : m ∈ S.reachable)
    (hstmt : q.program.stmt? ⟨m, i⟩ = some (.assign x (.new ty))) :
    Traced.Returns (processStmt q m s (i, .assign x (.new ty))) fun t =>
      Inv q S t ∧ Progress q s t ∧ StmtDone q t ⟨m, i⟩ (.assign x (.new ty)) := by
  have hs' := hs.count (s.statementsProcessed + 1)
  have hprog : Progress q s _ := Progress.count s (s.statementsProcessed + 1)
  have hx := hp.accepted.owns_def hstmt rfl
  obtain ⟨hv, hle, habs, hsites⟩ := hs'.heap.allocate hstmt
  have hj : Justified q S (s.heap.allocate q.model ⟨m, i⟩ ty).2 (.var x)
      (s.heap.allocate q.model ⟨m, i⟩ ty).1 := by
    exact ⟨Live.of_owns hx hm (Program.lt_of_stmt? hstmt), _, _, rfl, habs, hS.stmt hm hstmt⟩
  have hinv := hs'.withHeap hv hle fun hobj => by
    rcases hsites hobj with hobj | hsite
    · exact hs.allocated hobj
    · rw [hsite]
      exact hm
  refine Traced.returns_pure.mpr ⟨hinv.send hx.lt hj, ?_, ?_⟩
  · exact hprog.trans ((Progress.of_edges (.withHeap hle) rfl).trans
      (.of_edges (.send hinv.wellFormed _ _) rfl))
  · refine ⟨fun hf => (by cases hf), fun he => ?_, fun he => (by cases he)⟩
    cases he
    exact ⟨_, habs, State.reaches_send hinv.wellFormed⟩

theorem Inv.processInvoke {result : Option VarId} {call : Call} (hp : Serves q S)
    (hS : S.Satisfies q entry) (hs : Inv q S s) (hm : m ∈ S.reachable)
    (hstmt : q.program.stmt? ⟨m, i⟩ = some (.invoke result call)) :
    Traced.Returns (processStmt q m s (i, .invoke result call)) fun t =>
      Inv q S t ∧ Progress q s t ∧ StmtDone q t ⟨m, i⟩ (.invoke result call) := by
  have hs' := hs.count (s.statementsProcessed + 1)
  have hprog : Progress q s _ := Progress.count s (s.statementsProcessed + 1)
  have hdone : ∀ {t : State}, (∀ m', call.kind = .static →
      q.program.resolve call.target.cls call.target.subsignature = .ok (some m') →
      ⟨call.kind, ⟨m, i⟩, m'⟩ ∈ t.calls.edges) → StmtDone q t ⟨m, i⟩ (.invoke result call) := by
    intro t hedges
    refine ⟨fun hf => (by cases hf), fun he => (by cases he), fun {_ _ m'} he hk hr => ?_⟩
    cases he
    exact hedges m' hk hr
  unfold PointsTo.processStmt
  dsimp only
  by_cases hk : call.kind = .static
  · rw [if_pos hk]
    obtain ⟨r, hr, hlt⟩ := Program.resolve_ok hp.accepted hp.classes (hp.classes.call hstmt)
      call.target.subsignature
    rw [Traced.returns_lift_bind ((callTarget_static hk).trans hr)]
    cases r with
    | none =>
      rw [Traced.returns_log_bind, Traced.returns_pure]
      refine ⟨hs', hprog, hdone fun m' _ hr' => ?_⟩
      rw [hr] at hr'
      cases hr'
    | some callee =>
      have hlinked := (hS.stmt hm hstmt).1 hk callee hr
      refine (hs'.link hp hstmt hm hlinked (hlt callee rfl)).mono fun t ht => ?_
      obtain ⟨hinv, hstep, hedge⟩ := ht
      refine ⟨hinv, hprog.trans hstep, hdone fun m' _ hr' => ?_⟩
      rw [hr] at hr'
      cases hr'
      exact hedge
  · rw [if_neg hk, Traced.returns_pure]
    exact ⟨hs', hprog, hdone fun _ hk' => absurd hk' hk⟩

/-- A statement is done when it has been processed. -/
theorem Inv.processStmt (hp : Serves q S) (hS : S.Satisfies q entry) (hs : Inv q S s)
    (hm : m ∈ S.reachable) (hstmt : q.program.stmt? ⟨m, i⟩ = some st) :
    Traced.Returns (processStmt q m s (i, st)) fun t =>
      Inv q S t ∧ Progress q s t ∧ StmtDone q t ⟨m, i⟩ st := by
  cases hdf : st.directFlow? with
  | some f => exact hs.processFlow hp hS hm hstmt hdf
  | none =>
    by_cases hnew : ∃ x ty, st = .assign x (.new ty)
    · obtain ⟨x, ty, rfl⟩ := hnew
      exact hs.processNew hp hS hm hstmt
    by_cases hcall : ∃ result call, st = .invoke result call
    · obtain ⟨result, call, rfl⟩ := hcall
      exact hs.processInvoke hp hS hm hstmt
    rw [processStmt_idle hdf hnew hcall, Traced.returns_pure]
    refine ⟨hs.count _, .count s _, fun hf => ?_, fun he => absurd ⟨_, _, he⟩ hnew,
      fun he => absurd ⟨_, _, he⟩ hcall⟩
    rw [hdf] at hf
    cases hf

end ProcessStmt

end PointsTo
end ProgramAnalysis
