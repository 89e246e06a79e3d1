import ProgramAnalysis.Proofs.PointsTo.LeastSolution

/-! The loop of the solver without its bound on the number of steps: it ends in the state that
`solve` returns, with nothing left to do. When an object arrives at a variable, the solver looks at
the body of the method that the variable is declared for. Building a program checks the owners of the
variables in statements and misses those of `this` and of parameters, so that what is needed of these
is assumed: the methods that they are declared for exist. -/
namespace ProgramAnalysis

/-- The variables that a call of the body binds. -/
def Body.Binds (b : Body) (v : VarId) : Prop := b.this = some v ∨ v ∈ b.params

namespace Program

def BindsInRange (p : Program) : Prop :=
  ∀ m b v, p.body? m = some b → b.Binds v → v.index < p.vars.size

/-- Bound variables are declared for methods that exist, though not always for the one that binds
them. -/
def BindsDeclared (p : Program) : Prop :=
  ∀ m b v, p.body? m = some b → b.Binds v → ∃ k, p.Owns k v ∧ k.index < p.methods.size

theorem bindsDeclared_of_owns {p : Program} (hthis : p.OwnsThis) (hparams : p.OwnsParams) :
    p.BindsDeclared := by
  rintro m b v hb (hv | hv)
  · exact ⟨m, hthis m b v hb hv, lt_of_body? hb⟩
  · exact ⟨m, hparams m b hb v hv, lt_of_body? hb⟩

theorem Proper.bindsDeclared {p : Program} (hp : p.Proper) : p.BindsDeclared :=
  bindsDeclared_of_owns hp.this hp.params

end Program

namespace PointsTo

/-- `n` steps in a row, each of which finds something to do. -/
inductive Steps (q : Problem) : Nat → State → State → Prop
  | refl (s : State) : Steps q 0 s s
  | head {n : Nat} {s t u : State} : (step q s).result = .ok (true, t) → Steps q n t u →
      Steps q (n + 1) s u

/-- From its start the loop takes finitely many steps up to one that finds nothing to do and leaves
`u`. -/
def EndsIn (q : Problem) (u : State) : Prop :=
  ∃ s n t, (start q .initial).result = .ok s ∧ Steps q n s t ∧ (step q t).result = .ok (false, u)

variable {q : Problem} {s t u : State} {entry : MethodId} {fuel n : Nat}

theorem step_eq_of_done (hwork : s.work = []) (hpending : s.pending = []) :
    step q s = pure (false, s) := by
  simp only [step, processPending, hpending, pure_bind, hwork]

theorem step_of_done (hwork : s.work = []) (hpending : s.pending = []) :
    (step q s).result = .ok (false, s) :=
  congrArg Traced.result (step_eq_of_done hwork hpending)

/-- A bounded run takes as many steps as it may, or fewer if one finds nothing to do. -/
theorem steps_of_run (h : (run q fuel s).result = .ok u) :
    Steps q fuel s u ∨ ∃ n t, Steps q n s t ∧ (step q t).result = .ok (false, u) := by
  induction fuel generalizing s with
  | zero =>
    cases h
    exact .inl (.refl _)
  | succ fuel ih =>
    obtain ⟨⟨_ | _, t⟩, hstep, hrest⟩ := Traced.bind_ok_iff.mp h
    · cases hrest
      exact .inr ⟨0, s, .refl s, hstep⟩
    · rcases ih hrest with hall | ⟨n, t', hsteps, hlast⟩
      · exact .inl (.head hstep hall)
      · exact .inr ⟨n + 1, t', .head hstep hsteps, hlast⟩

/-- Where the loop ends, a bounded run does not fail. -/
theorem Steps.run_ok (hsteps : Steps q n s t) (hlast : (step q t).result = .ok (false, u))
    (fuel : Nat) : ∃ v, (run q fuel s).result = .ok v := by
  induction hsteps generalizing fuel with
  | refl s =>
    cases fuel with
    | zero => exact ⟨s, rfl⟩
    | succ fuel => exact ⟨u, Traced.bind_ok_iff.mpr ⟨_, hlast, rfl⟩⟩
  | head hstep _ ih =>
    cases fuel with
    | zero => exact ⟨_, rfl⟩
    | succ fuel =>
      obtain ⟨v, hv⟩ := ih hlast fuel
      exact ⟨v, Traced.bind_ok_iff.mpr ⟨_, hstep, hv⟩⟩

theorem EndsIn.solve_returns (h : EndsIn q u) : ∃ v, (solve q .initial).result = .ok v := by
  obtain ⟨s, n, t, hstart, hsteps, hlast⟩ := h
  obtain ⟨v, hv⟩ := hsteps.run_ok hlast (stepBound q.program)
  exact ⟨v, Traced.bind_ok_iff.mpr ⟨s, hstart, Traced.bind_ok_iff.mpr ⟨v, hv, rfl⟩⟩⟩

/-- What `solve` returns with nothing left to do is where the loop ends. -/
theorem endsIn_of_solve (h : (solve q .initial).result = .ok u) (hwork : u.work = [])
    (hpending : u.pending = []) : EndsIn q u := by
  obtain ⟨s, hstart, h⟩ := Traced.bind_ok_iff.mp h
  obtain ⟨v, hrun, h⟩ := Traced.bind_ok_iff.mp h
  cases h
  rcases steps_of_run hrun with hall | ⟨n, t, hsteps, hlast⟩
  · exact ⟨s, _, u, hstart, hall, step_of_done hwork hpending⟩
  · exact ⟨s, n, t, hstart, hsteps, hlast⟩

/-- With every method as reachable, the variables that calls bind are live. -/
theorem serves_all (ha : q.program.Accepted) (hc : q.program.ClassesInRange)
    (hb : q.program.BindsDeclared) : Serves q .all := by
  have hlive : ∀ {m b v}, q.program.body? m = some b → b.Binds v → Live q .all (.var v) := by
    intro m b v hbody hv
    obtain ⟨k, howns, hlt⟩ := hb m b v hbody hv
    exact .of_owns howns trivial hlt
  exact ⟨ha, hc, fun _ hbody hv => hlive hbody (.inl hv), fun _ hbody hv => hlive hbody (.inr hv)⟩

/-- The loop ends with nothing left to do, in the state that `solve` returns. -/
theorem solve_converges (ha : q.program.Accepted) (hc : q.program.ClassesInRange)
    (hb : q.program.BindsDeclared) (hentry : q.entry.or q.program.entry = some entry)
    (hlt : entry.index < q.program.methods.size) :
    ∃ u, EndsIn q u ∧ u.work = [] ∧ u.pending = [] ∧ (solve q .initial).result = .ok u := by
  obtain ⟨u, hsolve, -, -, -, hwork, hpending⟩ :=
    solve_ok (serves_all ha hc hb) (Facts.all_satisfies q entry) hentry hlt
  exact ⟨u, endsIn_of_solve hsolve hwork hpending, hwork, hpending, hsolve⟩

theorem solve_converges_sample :
    ∃ u, EndsIn ⟨.sample, .typeBased, none⟩ u ∧ u.work = [] ∧ u.pending = [] ∧
      (solve ⟨.sample, .typeBased, none⟩ .initial).result = .ok u :=
  solve_converges (q := ⟨.sample, .typeBased, none⟩) Program.accepted_sample
    Program.proper_sample.classes Program.proper_sample.bindsDeclared rfl (by decide)

/-! ### A parameter declared for a method that does not exist -/

/-- `x = new C; main(x); return`, with the parameter `p`. -/
def strayBody : Body where
  this := none
  params := [⟨0⟩]
  stmts := #[.assign ⟨1⟩ (.new (.cls ⟨0⟩)),
    .invoke none ⟨.static, ⟨⟨0⟩, "void main(C)"⟩, none, [⟨1⟩]⟩, .ret none]

/-- The parameter of `main` is declared for the method 9, of one method. -/
def strayBuilder : Builder where
  classes := #[⟨"C", none, [], false, false, [("void main(C)", ⟨0⟩)], []⟩]
  fields := #[]
  methods := #[⟨"void main(C)", ⟨0⟩, true, false, some strayBody⟩]
  vars := #[⟨"p", .cls ⟨0⟩, ⟨9⟩⟩, ⟨"x", .cls ⟨0⟩, ⟨0⟩⟩]
  entry := some ⟨0⟩
  root := none

def stray : Program := strayBuilder.program

theorem accepted_stray : stray.Accepted := by
  have hmain := (Builder.Built.empty.addClass "C" none).addMethod
    (rfl : Builder.addMethod _ ⟨0⟩ "void main(C)" true = .ok (_, _))
  have hvars := (hmain.addVar ⟨9⟩ "p" (.cls ⟨0⟩)).addVar ⟨0⟩ "x" (.cls ⟨0⟩)
  have hbody := hvars.setBody (rfl : Builder.setBody _ ⟨0⟩ strayBody = .ok _)
  exact ⟨strayBuilder, hbody.setEntry ⟨0⟩, rfl⟩

theorem body?_stray {m : MethodId} {b : Body} (h : stray.body? m = some b) : b = strayBody := by
  obtain ⟨_ | i⟩ := m
  · exact (Option.some.inj h).symm
  · cases h

theorem classesInRange_stray : stray.ClassesInRange := by
  have hstmt : ∀ {site s}, stray.stmt? site = some s → s ∈ strayBody.stmts.toList := by
    intro site s hs
    obtain ⟨b, hb, hs⟩ := Program.stmt?_eq_some_iff.mp hs
    cases body?_stray hb
    exact Array.mem_toList_iff.mpr (Array.mem_of_getElem? hs)
  refine ⟨?_, ?_, fun h => (by cases h), fun hs => ?_, fun hs => ?_⟩
  · rintro ⟨_ | i⟩ d s hd hs <;> cases hd
    cases hs
  · rintro ⟨_ | i⟩ d s hd hs <;> cases hd
    cases hs
  · have hmem := hstmt hs
    simp only [strayBody, List.mem_cons, Stmt.invoke.injEq, reduceCtorEq, List.not_mem_nil,
      or_false, false_or] at hmem
    rw [hmem.2]
    decide
  · have hmem := hstmt hs
    simp only [strayBody, List.mem_cons, Stmt.assign.injEq, reduceCtorEq, List.not_mem_nil,
      or_false] at hmem
    obtain ⟨-, hnew⟩ := hmem
    cases hnew
    decide

/-- The missed check shows: the program is accepted with all handles in range, and the loop fails when
the object arrives at the parameter. -/
theorem solve_fails_on_stray : stray.Accepted ∧ stray.ClassesInRange ∧ stray.BindsInRange ∧
    stray.entry = some ⟨0⟩ ∧ ∀ model u, ¬ EndsIn ⟨stray, model, none⟩ u := by
  refine ⟨accepted_stray, classesInRange_stray, ?_, rfl, fun model u h => ?_⟩
  · rintro m b v hb hv
    cases body?_stray hb
    rcases hv with hv | hv
    · cases hv
    · rw [List.mem_singleton.mp hv]
      decide
  · obtain ⟨v, hv⟩ := h.solve_returns
    have hfail : (solve ⟨stray, model, none⟩ .initial).result = .error .danglingHandle := by
      cases model <;> decide +kernel
    rw [hfail] at hv
    cases hv

end PointsTo
end ProgramAnalysis
