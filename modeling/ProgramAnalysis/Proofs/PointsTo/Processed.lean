import ProgramAnalysis.Proofs.PointsTo.Intact

/-! The solver reads every statement of a reached method once. A method becomes reachable and pending at
the same time, wherever it is reached from, and its statements are read when it stops being pending;
so in every state the count is that of the reachable methods that are not pending. With nothing left
to do, to solve again changes nothing. -/
namespace ProgramAnalysis.PointsTo

variable {q : Problem} {s t : State} {entry : MethodId}

/-! ### The solver has started -/

theorem ensures_start_started (q : Problem) (s : State) :
    Traced.Ensures (start q s) fun t => t.started = true := by
  unfold start
  split
  · next h => exact Traced.ensures_pure.mpr h
  · split
    · exact fun _ h => nomatch h
    · refine Traced.ensures_true.bind fun _ _ => Traced.ensures_true.bind fun _ _ => ?_
      exact Traced.ensures_pure.mpr rfl

theorem ensures_propagate_started (s : State) (n : Nat) (objects : ObjSet) :
    Traced.Ensures (propagate s n objects) fun r => r.2.started = s.started := by
  unfold propagate
  refine Traced.ensures_true.bind fun pointer _ => ?_
  dsimp only
  split
  · exact Traced.ensures_pure.mpr rfl
  · refine Traced.ensures_true.bind fun _ _ => Traced.ensures_pure.mpr ?_
    rw [State.foldl_enqueue]

theorem ensures_step_started (q : Problem) (s : State) :
    Traced.Ensures (step q s) fun r => r.2.started = s.started := by
  unfold step
  refine (Spends.processPending 0 _ s).bind fun t ht => ?_
  split
  · exact Traced.ensures_pure.mpr ht.started
  · refine (ensures_propagate_started _ _ _).bind fun r hr => ?_
    refine (Spends.processArrivals 0 r.2 _ r.1).bind fun u hu => Traced.ensures_pure.mpr ?_
    exact hu.started.trans (hr.trans ht.started)

theorem Reached.started (h : Reached q s) : s.started = true := by
  induction h with
  | start h => exact ensures_start_started q _ _ h
  | step _ h ih => exact (ensures_step_started q _ _ h).trans ih

/-- To solve again a state with nothing left to do changes nothing. -/
theorem solve_of_done (hstarted : s.started = true) (hwork : s.work = [])
    (hpending : s.pending = []) : (solve q s).result = .ok s := by
  have hstart : (start q s).result = .ok s := by
    rw [start, if_pos hstarted]
    rfl
  have hrun : (run q (stepBound q.program) s).result = .ok s :=
    Traced.bind_ok_iff.mpr ⟨(false, s), step_of_done hwork hpending, rfl⟩
  exact Traced.bind_ok_iff.mpr ⟨s, hstart, Traced.bind_ok_iff.mpr ⟨s, hrun, rfl⟩⟩

/-! ### Counting the statements -/

/-- No method is reachable or pending twice, what is pending is reachable, and the statements read are
those of the reachable methods that are not pending. -/
structure Tallied (p : Program) (s : State) : Prop where
  reachable : s.calls.reachable.toList.Nodup
  pending : s.pending.Nodup
  subset : ∀ m ∈ s.pending, m ∈ s.calls.reachable
  count : s.statementsProcessed =
    bodySizes p (s.calls.reachable.toList.filter fun m => m ∉ s.pending)

/-- A fixpoint: all statements of reachable methods have been read, and to solve again changes
nothing at all. -/
structure AtFixpoint (q : Problem) (t : State) : Prop where
  count : t.statementsProcessed = bodySizes q.program t.calls.reachable.toList
  again : (solve q t).result = .ok t

theorem Tallied.of_methods {p p' : Program} (h : Tallied p' s) (hmethods : p'.methods = p.methods) :
    Tallied p s := by
  have hsize : bodySize p' = bodySize p := by
    funext m
    rw [bodySize, bodySize, Program.method?, Program.method?, hmethods]
  refine ⟨h.reachable, h.pending, h.subset, ?_⟩
  rw [h.count, bodySizes, bodySizes, hsize]

theorem filter_not_mem_suffix {α : Type} [DecidableEq α] {xs ys : List α}
    (h : (xs ++ ys).Nodup) : (xs ++ ys).filter (fun x => x ∉ ys) = xs := by
  have hdisjoint := (List.nodup_append.mp h).2.2
  have hkept : xs.filter (fun x => x ∉ ys) = xs :=
    List.filter_eq_self.mpr fun x hx => by simpa using fun hy => hdisjoint x hx x hy rfl
  have hdropped : ys.filter (fun x => x ∉ ys) = [] :=
    List.filter_eq_nil_iff.mpr fun y hy => by simpa using hy
  rw [List.filter_append, hkept, hdropped, List.append_nil]

/-- The pending methods are the last ones reached, so that those before them have been read. -/
theorem tallied_of_unread (hnodup : s.calls.reachable.toList.Nodup)
    (hpending : s.pending <:+ s.calls.reachable.toList) (hunread : s.unread q.program = 0) :
    Tallied q.program s := by
  obtain ⟨ms, hms⟩ := hpending
  have hparts : (ms ++ s.pending).Nodup := hms ▸ hnodup
  refine ⟨hnodup, (List.nodup_append.mp hparts).2.1, fun m hm => ?_, ?_⟩
  · rw [← Array.mem_toList_iff, ← hms]
    exact List.mem_append_right _ hm
  · rw [State.unread, ← hms, bodySizes_append] at hunread
    rw [← hms, filter_not_mem_suffix hparts]
    omega

theorem Reached.paid (hp : Serves q .all) (hentry : q.entry.or q.program.entry = some entry)
    (hlt : entry.index < q.program.methods.size) (h : Reached q s) : Paid q s := by
  have hS := Facts.all_satisfies q entry
  induction h with
  | start h =>
    obtain ⟨t, ht, -, -, hpaid, -⟩ := start_ok hS hentry hlt
    cases h.symm.trans ht
    exact hpaid
  | step hs h ih =>
    obtain ⟨hinv, hset⟩ := hs.inv hp hentry hlt
    obtain ⟨r, hr, hpaid, -⟩ := hinv.step_paid hp hS hset ih
    cases h.symm.trans hr
    exact hpaid

/-! ### Every accepted program -/

/-- The invariants hold of the same state on a program with the same methods, on which no step fails. -/
theorem Reached.exists_inv (ha : q.program.Accepted) (h : Reached q s)
    (hentry : q.entry.or q.program.entry = some entry)
    (hlt : entry.index < q.program.methods.size) : ∃ p', p'.methods = q.program.methods ∧
      q.program.CoveredBy Set.univ p' ∧ Serves (q.on p') .all ∧ Inv (q.on p') .all s ∧
      Settled (q.on p') s ∧ Paid (q.on p') s := by
  obtain ⟨classes, vars, ha', hc', hb', hcovered⟩ := Program.exists_completed ha
  have hserves : Serves (q.on { q.program with classes, vars }) .all := serves_all ha' hc' hb'
  have h' : Reached (q.on { q.program with classes, vars }) s := h.of_covered rfl (hcovered Set.univ)
  obtain ⟨hinv, hset⟩ := h'.inv hserves hentry hlt
  exact ⟨{ q.program with classes, vars }, rfl, hcovered Set.univ, hserves, hinv, hset,
    h'.paid hserves hentry hlt⟩

/-- At the start the entry is pending, whether there is such a method or not. -/
theorem ensures_start_tallied (q : Problem) :
    Traced.Ensures (start q .initial) (Tallied q.program) := by
  unfold start
  rw [if_neg (by simp [State.initial])]
  split
  · intro t h
    cases h
  · next entry _ =>
    refine Traced.ensures_true.bind fun _ _ => ?_
    have hreach : Traced.Ensures ({ State.initial with
        calls := State.initial.calls.addEntry entry }.reach entry) fun t =>
        t.calls.reachable.toList = [entry] ∧ t.pending = [entry] ∧ t.unread q.program = 0 := by
      intro t h
      have hnew : ¬ (State.initial.calls.addEntry entry).isReachable entry = true := by
        simp [State.initial, CallGraph.isReachable, CallGraph.empty, CallGraph.addEntry]
      obtain ⟨-, hcalls, hpending⟩ := ensures_reach _ entry t h
      refine ⟨?_, hpending hnew, (Spends.reach q.program 0 _ entry t h).unread⟩
      rw [hcalls, CallGraph.toList_addReachable hnew]
      rfl
    refine hreach.bind fun t ht => Traced.ensures_pure.mpr ?_
    obtain ⟨hreachable, hpending, hunread⟩ := ht
    have hsuffix : t.pending <:+ t.calls.reachable.toList := by
      simp only [hpending, hreachable, List.suffix_rfl]
    exact tallied_of_unread (hreachable ▸ List.nodup_singleton entry) hsuffix hunread

theorem Reached.tallied (ha : q.program.Accepted) (h : Reached q s) : Tallied q.program s := by
  obtain ⟨entry, hentry, hor⟩ := h.exists_entry
  by_cases hlt : entry.index < q.program.methods.size
  · obtain ⟨p', hmethods, -, -, hinv, -, hpaid⟩ := h.exists_inv ha hentry hlt
    exact (tallied_of_unread hinv.nodup hinv.pending hpaid.unread).of_methods hmethods
  · cases h with
    | start h => exact ensures_start_tallied q s h
    | step h hstep =>
      obtain ⟨entry', hentry', hor'⟩ := h.exists_entry
      cases hentry.symm.trans hentry'
      exact absurd (pending_lt (hor'.resolve_left hlt).2.2 hstep) hlt

theorem Reached.done (ha : q.program.Accepted) (h : Reached q s)
    (hstep : (PointsTo.step q s).result = .ok (false, t)) : t.work = [] ∧ t.pending = [] := by
  obtain ⟨entry, hentry, hor⟩ := h.exists_entry
  have hlt : entry.index < q.program.methods.size :=
    hor.elim id fun hstart => pending_lt hstart.2.2 hstep
  obtain ⟨p', -, hcovered, hserves, hinv, hset, -⟩ := h.exists_inv ha hentry hlt
  obtain ⟨r, hr, -, -, -, hend⟩ := hinv.step hserves (Facts.all_satisfies _ entry) hset
  cases hr.symm.trans (step_of_covered hcovered hstep)
  exact hend rfl

/-- A step that finds nothing to do leaves all statements read. -/
theorem Reached.atFixpoint (ha : q.program.Accepted) (h : Reached q s)
    (hstep : (PointsTo.step q s).result = .ok (false, t)) : AtFixpoint q t := by
  have ht : Reached q t := h.step hstep
  obtain ⟨hwork, hpending⟩ := h.done ha hstep
  have hcount := (ht.tallied ha).count
  have hall : (t.calls.reachable.toList.filter fun m => m ∉ t.pending) =
      t.calls.reachable.toList := by simp [hpending]
  rw [hall] at hcount
  exact ⟨hcount, solve_of_done ht.started hwork hpending⟩

theorem Steps.reached {n : Nat} (h : Steps q n s t) (hs : Reached q s) : Reached q t := by
  induction h with
  | refl => exact hs
  | head hstep _ ih => exact ih (hs.step hstep)

/-- On an accepted program no method is pending twice and none that is not reachable, in any state of
the solver, and the statements read are those of the reachable methods that are not pending. At a
fixpoint all statements of reachable methods have been read, and to solve again changes nothing. With
handles in range the solver ends at a fixpoint. -/
theorem statements_read_once (ha : q.program.Accepted) :
    (∀ s, Reached q s → Tallied q.program s) ∧
      (∀ s t, Reached q s → (step q s).result = .ok (false, t) → AtFixpoint q t) ∧
      (q.program.ClassesInRange → q.program.BindsDeclared →
        ∀ entry, q.entry.or q.program.entry = some entry → entry.index < q.program.methods.size →
          ∃ u, EndsIn q u ∧ (solve q .initial).result = .ok u ∧ AtFixpoint q u) := by
  refine ⟨fun s hs => hs.tallied ha, fun s t hs hstep => hs.atFixpoint ha hstep,
    fun hc hb entry hentry hlt => ?_⟩
  obtain ⟨u, hends, -, -, hsolve⟩ := solve_converges ha hc hb hentry hlt
  obtain ⟨s, n, t, hstart, hsteps, hlast⟩ := hends
  exact ⟨u, ⟨s, n, t, hstart, hsteps, hlast⟩, hsolve,
    (hsteps.reached (.start hstart)).atFixpoint ha hlast⟩

/-- After the first step on `Program.sample` the nine statements of `main` have been read and the method
that it calls is pending; the fifth step finds nothing to do, with its statement read as well. -/
theorem statements_read_once_sample : Program.sample.Accepted ∧ ∃ s t u,
    Reached ⟨.sample, .allocationSite, none⟩ s ∧ Tallied .sample s ∧ s.pending = [⟨2⟩] ∧
    s.statementsProcessed = 9 ∧ Reached ⟨.sample, .allocationSite, none⟩ t ∧
    (step ⟨.sample, .allocationSite, none⟩ t).result = .ok (false, u) ∧
    AtFixpoint ⟨.sample, .allocationSite, none⟩ u ∧ u.statementsProcessed = 10 := by
  have hrun : (do
      let r ← start ⟨.sample, .allocationSite, none⟩ .initial
      let s ← step ⟨.sample, .allocationSite, none⟩ r
      let t ← step ⟨.sample, .allocationSite, none⟩ s.2
      let t ← step ⟨.sample, .allocationSite, none⟩ t.2
      let t ← step ⟨.sample, .allocationSite, none⟩ t.2
      let u ← step ⟨.sample, .allocationSite, none⟩ t.2
      return decide (u.1 = false ∧ s.2.pending = [⟨2⟩] ∧ s.2.statementsProcessed = 9 ∧
        u.2.statementsProcessed = 10) : Traced Bool).result = .ok true := by
    decide +kernel
  obtain ⟨r, hstart, hrun⟩ := Traced.bind_ok_iff.mp hrun
  obtain ⟨⟨_, s⟩, hs, hrun⟩ := Traced.bind_ok_iff.mp hrun
  obtain ⟨⟨_, t₁⟩, ht₁, hrun⟩ := Traced.bind_ok_iff.mp hrun
  obtain ⟨⟨_, t₂⟩, ht₂, hrun⟩ := Traced.bind_ok_iff.mp hrun
  obtain ⟨⟨_, t⟩, ht, hrun⟩ := Traced.bind_ok_iff.mp hrun
  obtain ⟨⟨more, u⟩, hu, hrun⟩ := Traced.bind_ok_iff.mp hrun
  obtain ⟨rfl, hpending, hread, hall⟩ := of_decide_eq_true (Except.ok.inj hrun)
  have hs := (Reached.start hstart).step hs
  have ht := ((hs.step ht₁).step ht₂).step ht
  obtain ⟨htallied, hfixpoint, -⟩ :=
    statements_read_once (q := ⟨.sample, .allocationSite, none⟩) Program.accepted_sample
  exact ⟨Program.accepted_sample, s, t, u, hs, htallied s hs, hpending, hread, ht, hu,
    hfixpoint t u ht hu, hall⟩

end ProgramAnalysis.PointsTo
