import ProgramAnalysis.PointsTo.Result
import ProgramAnalysis.Proofs.PointsTo.Convergence
import ProgramAnalysis.Proofs.PointsTo.Lockstep
import ProgramAnalysis.Proofs.Program.Padding

/-! The solver on two programs that agree on the bodies of all methods that it finds reachable in the
first: it ends in the same state. The programs may differ in the steps that the solver may take, but
not in those that it does take. -/
namespace ProgramAnalysis.PointsTo

variable {q : Problem} {p' : Program} {R : Set MethodId} {s t u : State} {entry : MethodId}

/-! ### More steps than it takes -/

theorem run_eq_of_done (hwork : s.work = []) (hpending : s.pending = []) (fuel : Nat) :
    run q fuel s = pure s := by
  cases fuel with
  | zero => rfl
  | succ fuel =>
    rw [run, step_eq_of_done hwork hpending, pure_bind]
    rfl

/-- A run that is done before its bound is reached is the same with a higher bound. -/
theorem run_eq_of_le {fuel fuel' : Nat} (h : (run q fuel s).result = .ok u) (hwork : u.work = [])
    (hpending : u.pending = []) (hle : fuel ≤ fuel') : run q fuel' s = run q fuel s := by
  induction fuel generalizing s fuel' with
  | zero =>
    cases h
    exact run_eq_of_done hwork hpending fuel'
  | succ fuel ih =>
    obtain ⟨k, rfl⟩ : ∃ k, fuel' = k + 1 := ⟨fuel' - 1, by omega⟩
    refine Traced.bind_congr_of_ok fun r hr => ?_
    obtain ⟨r', hr', hrest⟩ := Traced.bind_ok_iff.mp h
    cases hr.symm.trans hr'
    obtain ⟨more, t⟩ := r
    cases more with
    | false => rfl
    | true => exact ih hrest (by omega)

/-- With a lower bound, a run that does not fail does not fail. -/
theorem run_ok_of_le {fuel fuel' : Nat} (h : (run q fuel s).result = .ok u) (hle : fuel' ≤ fuel) :
    ∃ v, (run q fuel' s).result = .ok v := by
  induction fuel generalizing s fuel' with
  | zero =>
    cases Nat.le_zero.mp hle
    exact ⟨u, h⟩
  | succ fuel ih =>
    cases fuel' with
    | zero => exact ⟨s, rfl⟩
    | succ fuel' =>
      obtain ⟨⟨more, t⟩, hstep, hrest⟩ := Traced.bind_ok_iff.mp h
      cases more with
      | false => exact ⟨t, Traced.bind_ok_iff.mpr ⟨_, hstep, rfl⟩⟩
      | true =>
        obtain ⟨v, hv⟩ := ih hrest (Nat.le_of_succ_le_succ hle)
        exact ⟨v, Traced.bind_ok_iff.mpr ⟨_, hstep, hv⟩⟩

/-! ### From the start to the end -/

theorem keeps_start (p' : Program) (hentry : q.entry.or q.program.entry = some entry)
    (hentry' : q.entry.or p'.entry = some entry) :
    Keeps q.program R .initial id (start (q.on p') .initial) (start q .initial) := by
  unfold start
  rw [if_neg (by simp [State.initial]), if_neg (by simp [State.initial])]
  simp only [Problem.on, hentry, hentry']
  refine Traced.mirrors_log_bind ((keeps_reach ?_ fun hs _ => ?_).bind fun t _ => ?_)
  · exact fun m hm => by simp [State.seen, State.initial, CallGraph.empty] at hm
  · exact ⟨hs.node, hs.pending, fun h => by
      simp [State.initial, CallGraph.empty, CallGraph.addEntry] at h⟩
  · exact Traced.mirrors_pure subset_rfl fun ht _ => ⟨ht.node, ht.pending, ht.edge⟩

theorem tied_initial (p : Program) (R : Set MethodId) : Tied p R .initial where
  node h := by simp [State.initial, PointerGraph.pointer?, PointerGraph.empty] at h
  pending h := by cases h
  edge h := by simp [State.initial, CallGraph.empty] at h

theorem stepBound_of_eq {p p' : Program} (hvars : p'.vars = p.vars)
    (hmethods : p'.methods = p.methods) : stepBound p' = stepBound p := by
  unfold stepBound statementCount bodySize Program.methodIds Program.method?
  rw [hvars, hmethods]

/-- Where the solver does not fail, it ends in the same state on a program that has its class handles
in range. -/
theorem exists_padded_solve (ha : q.program.Accepted)
    (hentry : q.entry.or q.program.entry = some entry) (h : (solve q .initial).result = .ok u) :
    ∃ classes : Array ClassDecl, Program.Accepted { q.program with classes } ∧
      Program.ClassesInRange { q.program with classes } ∧
      (solve (q.on { q.program with classes }) .initial).result = .ok u := by
  obtain ⟨s, hstart, h⟩ := Traced.bind_ok_iff.mp h
  obtain ⟨v, hrun, h⟩ := Traced.bind_ok_iff.mp h
  cases h
  obtain ⟨classes, ha', hc', hagrees⟩ := q.program.exists_padded ha
  let padded : Program := { q.program with classes }
  obtain ⟨hstart', htied⟩ := (keeps_start padded hentry hentry).same
    (tied_initial q.program Set.univ) s hstart (Set.subset_univ _)
  obtain ⟨hrun', -⟩ := (keeps_run (hagrees Set.univ).toCoveredBy q.program.confines_univ _ s).same
    htied _ hrun (Set.subset_univ _)
  have hbound : stepBound (q.on padded).program = stepBound q.program := stepBound_of_eq rfl rfl
  refine ⟨classes, ha', hc', Traced.bind_ok_iff.mpr ⟨s, hstart' ▸ hstart, ?_⟩⟩
  refine Traced.bind_ok_iff.mpr ⟨_, ?_, rfl⟩
  rw [hbound, hrun']
  exact hrun

/-- A run from the start that does not fail is done. -/
theorem done_of_run (ha : q.program.Accepted) (hb : q.program.BindsDeclared)
    (hentry : q.entry.or q.program.entry = some entry)
    (hlt : entry.index < q.program.methods.size) (hstart : (start q .initial).result = .ok s)
    (hrun : (run q (stepBound q.program) s).result = .ok u) : u.work = [] ∧ u.pending = [] := by
  have hsolve : (solve q .initial).result = .ok u :=
    Traced.bind_ok_iff.mpr ⟨s, hstart, Traced.bind_ok_iff.mpr ⟨u, hrun, rfl⟩⟩
  obtain ⟨classes, ha', hc', hsolve⟩ := exists_padded_solve ha hentry hsolve
  obtain ⟨u', -, hwork, hpending, hsolve'⟩ :=
    solve_converges (q := q.on { q.program with classes }) ha' hc' hb hentry hlt
  cases hsolve.symm.trans hsolve'
  exact ⟨hwork, hpending⟩

/-- Whatever the bounds of the two runs are, both are done before. -/
theorem run_agrees (ha : q.program.Accepted) (ha' : p'.Accepted) (hb : q.program.BindsDeclared)
    (hb' : p'.BindsDeclared) (hentry : q.entry = some entry)
    (hlt : entry.index < q.program.methods.size) (hagrees : q.program.Agrees R p')
    (hc : q.program.Confines R) (hstart : (start q .initial).result = .ok s)
    (hstart' : (start (q.on p') .initial).result = .ok s) (hs : Tied q.program R s)
    (hrun : (run q (stepBound q.program) s).result = .ok u) (hR : u.seen ⊆ R) :
    run (q.on p') (stepBound p') s = run q (stepBound q.program) s := by
  obtain ⟨hsame, -⟩ := (keeps_run hagrees.toCoveredBy hc _ s).same hs u hrun hR
  rw [← hsame] at hrun ⊢
  have hentryq : q.entry.or q.program.entry = some entry := by simp [hentry]
  have hentryp : q.entry.or p'.entry = some entry := by simp [hentry]
  -- The run with the lower bound is done, whichever program it is of.
  rcases Nat.le_total (stepBound q.program) (stepBound p') with hle | hle
  · obtain ⟨hwork, hpending⟩ := done_of_run ha hb hentryq hlt hstart (hsame ▸ hrun)
    exact run_eq_of_le hrun hwork hpending hle
  · obtain ⟨v, hv⟩ := run_ok_of_le hrun hle
    obtain ⟨hwork, hpending⟩ :=
      done_of_run (q := q.on p') ha' hb' hentryp (hagrees.size ▸ hlt) hstart' hv
    exact (run_eq_of_le hv hwork hpending hle).symm

theorem solve_agrees (ha : q.program.Accepted) (ha' : p'.Accepted) (hb : q.program.BindsDeclared)
    (hb' : p'.BindsDeclared) (hentry : q.entry = some entry)
    (hlt : entry.index < q.program.methods.size) (hagrees : q.program.Agrees R p')
    (hc : q.program.Confines R) (h : (solve q .initial).result = .ok u) (hR : u.seen ⊆ R) :
    solve (q.on p') .initial = solve q .initial := by
  obtain ⟨s, hstart, h⟩ := Traced.bind_ok_iff.mp h
  obtain ⟨v, hrun, h⟩ := Traced.bind_ok_iff.mp h
  cases h
  have hgrows := (keeps_run hagrees.toCoveredBy hc _ s).grows _ hrun
  have hentryq : q.entry.or q.program.entry = some entry := by simp [hentry]
  have hentryp : q.entry.or p'.entry = some entry := by simp [hentry]
  obtain ⟨hsame, hs⟩ := (keeps_start p' hentryq hentryp).same
    (tied_initial q.program R) s hstart (hgrows.trans hR)
  have hruns := run_agrees ha ha' hb hb' hentry hlt hagrees hc hstart (hsame ▸ hstart) hs hrun hR
  unfold solve
  rw [hsame]
  refine Traced.bind_congr_of_ok fun s' hs' => ?_
  cases hstart.symm.trans hs'
  show run (q.on p') (stepBound p') s >>= _ = _
  rw [hruns]

theorem analyze_agrees {r : Result} (ha : q.program.Accepted) (ha' : p'.Accepted)
    (hb : q.program.BindsDeclared) (hb' : p'.BindsDeclared) (hentry : q.entry = some entry)
    (hlt : entry.index < q.program.methods.size) (hagrees : q.program.Agrees R p')
    (hc : q.program.Confines R) (h : (analyze q).result = .ok r)
    (hR : ∀ m ∈ r.calls.reachable, m ∈ R) : analyze (q.on p') = analyze q := by
  obtain ⟨u, hsolve, h⟩ := Traced.bind_ok_iff.mp h
  cases h
  unfold analyze
  rw [solve_agrees ha ha' hb hb' hentry hlt hagrees hc hsolve hR]

end ProgramAnalysis.PointsTo
