import ProgramAnalysis.Proofs.Constant.Fixpoint
import ProgramAnalysis.Proofs.Execution.Ints

/-! Constant propagation is sound: where control arrives, what the fact says of an assigned variable
covers its value. A fixed solution is enough for this, since each step of a run stays within the
transfer of a node and an edge; the transfer itself need not be monotone. -/
namespace ProgramAnalysis

/-- A value of the lattice that leaves `k` open: any constant, or `k` itself. -/
def Value.Covers (x : Value) (k : Int32) : Prop := x = .nac ∨ x = .constant k

/-- The fact covers all that has been assigned. -/
def Fact.Covers (p : Program) (f : Fact) (σ : Ints) : Prop :=
  ∀ v k, p.holdsInt v → σ v = some k → (f.get v).Covers k

variable {p : Program} {m : MethodId} {b : Body} {f g : Fact} {σ τ : Ints} {k : Int32}

theorem Value.Covers.mono {x y : Value} (h : x.Covers k) (hle : x.meet y = y) : y.Covers k := by
  rcases h with rfl | rfl
  · exact .inl (by rw [← hle, nac_meet])
  · cases y with
    | undef => cases hle
    | nac => exact .inl rfl
    | constant n =>
      simp only [meet] at hle
      split at hle
      · next heq => exact .inr (congrArg constant heq.symm)
      · cases hle

/-- Arithmetic on covering values covers the result. The divisor is not zero, so that the value of a
division is not taken for undefined. -/
theorem Value.Covers.evalBinary {op : BinOp} {x y : Value} {i j : Int32} (hx : x.Covers i)
    (hy : y.Covers j) (hrun : op.run i j = some k) : (Value.evalBinary op x y).Covers k := by
  rw [run_eq] at hrun
  split at hrun
  · cases hrun
  · next hdivision =>
    have hzero : (op.isDivision && y == .constant 0) = false := by
      rcases hy with rfl | rfl
      · simp
      · cases hop : op.isDivision with
        | false => rfl
        | true =>
          have hj : j ≠ 0 := fun h => hdivision ⟨hop, h⟩
          simpa using hj
    unfold Value.evalBinary
    rw [hzero]
    rcases hx with rfl | rfl
    · exact .inl rfl
    · rcases hy with rfl | rfl
      · exact .inl rfl
      · exact .inr (congrArg constant (Option.some.inj hrun))

namespace Fact

theorem Covers.mono (h : f.Covers p σ) (hle : f.meet g = g) : g.Covers p σ :=
  fun v k hv hk => (h v k hv hk).mono (by rw [← get_meet, hle])

theorem Covers.set {x : VarId} {y : Value} (h : f.Covers p σ) (hy : y.Covers k) :
    (f.set x y).Covers p (σ.assign x k) := by
  intro v n hv hn
  unfold Ints.assign at hn
  rw [get_set]
  by_cases hx : x = v
  · rw [if_pos hx] at hn ⊢
    cases hn
    exact hy
  · rw [if_neg hx] at hn ⊢
    exact h v n hv hn

theorem Covers.evaluate {e : Expr} (h : f.Covers p σ)
    (hints : (∃ v, e = .var v) ∨ (∃ c, e = .binary c) → ∀ v ∈ e.vars, p.holdsInt v)
    (hk : σ.Gives e k) : (Constant.evaluate e f).Covers k := by
  cases e with
  | int n =>
    cases hk
    exact .inr rfl
  | var v => exact h v k (hints (.inl ⟨v, rfl⟩) v List.mem_cons_self) hk
  | binary c =>
    have hvars := hints (.inr ⟨c, rfl⟩)
    obtain ⟨i, hi, hrest⟩ := Option.bind_eq_some_iff.mp hk
    obtain ⟨j, hj, hrun⟩ := Option.bind_eq_some_iff.mp hrest
    have hlhs := h c.lhs i (hvars c.lhs (by simp [Expr.vars])) hi
    have hrhs := h c.rhs j (hvars c.rhs (by simp [Expr.vars])) hj
    exact hlhs.evalBinary hrhs hrun
  | null | neg v | cast ty v | instanceOf v ty | new ty | field base f | element base i
  | length v => exact .inl rfl

end Fact

namespace Constant

/-- The transfer of a statement covers what executing it may lead to. -/
theorem covers_transferStmt {i : Nat} {s : Stmt} (hints : p.IntsFromInts b)
    (hs : b.stmt? i = some s) (h : f.Covers p σ) (hstep : p.Updates s σ τ) :
    (transferStmt p s f).Covers p τ := by
  unfold Program.Updates at hstep
  cases s with
  | assign x e =>
    simp only [Stmt.def?] at hstep
    simp only [transferStmt]
    by_cases hx : p.holdsInt x = true
    · rw [if_pos hx] at hstep ⊢
      obtain ⟨k, hk, rfl⟩ := hstep
      exact h.set (h.evaluate (hints i x e hs hx) hk)
    · rw [if_neg hx] at hstep ⊢
      rw [hstep]
      exact h
  | invoke result call =>
    cases result with
    | none =>
      rw [hstep]
      exact h
    | some x =>
      simp only [Stmt.def?] at hstep
      simp only [transferStmt]
      by_cases hx : p.holdsInt x = true
      · rw [if_pos hx] at hstep ⊢
        obtain ⟨k, _, rfl⟩ := hstep
        exact h.set (.inl rfl)
      · rw [if_neg hx] at hstep ⊢
        rw [hstep]
        exact h
  | store l v | branch c t | goto t | switch v cases d | ret v | nop =>
    rw [hstep]
    exact h

/-- Facts flow along edges: none goes back to the entry. -/
theorem covers_edge {facts : Facts} {e : FlowEdge} {x : Fact}
    (hfixed : Dataflow.Fixed (Cfg.ofBody m b).graph (analysis p) (Fact.Within p) facts.ins facts.outs)
    (he : e ∈ (Cfg.ofBody m b).graph.edges) (hx : facts.ins.get? e.source = some x)
    (hcovers : (transfer p e.source x).Covers p σ) :
    ∃ y, facts.ins.get? e.target = some y ∧ y.Covers p σ := by
  obtain ⟨hsource, htarget⟩ := Cfg.closed_ofBody m b e he
  obtain ⟨x', hx', _, _, hout⟩ := hfixed.defined e.source hsource
  obtain ⟨y, hy, _, _, _⟩ := hfixed.defined e.target htarget
  rw [hx] at hx'
  cases hx'
  have hentry : e.target ∉ Dataflow.boundaryNodes (Cfg.ofBody m b).graph (analysis p) := by
    intro h
    exact Cfg.target_ne_entry he (List.mem_singleton.mp h)
  have hle := hfixed.fed e he (.inl hentry) _ _ hout hy
  exact ⟨y, hy, hcovers.mono hle⟩

/-- Whenever a run is about to execute a node, the fact there covers every int-holding variable that
has been assigned: it gives `nac` or the current value. -/
theorem analyze_sound (hparams : p.OwnsParams) (hb : p.body? m = some b)
    (hints : p.IntsFromInts b) :
    ∃ facts, (analyze p m).result = .ok (Cfg.ofBody m b, facts) ∧
      ∀ σ₀, p.Enters b σ₀ → ∀ trace n σ, Run p.intDynamics m b σ₀ trace (some (n, σ)) →
        ∃ f, facts.ins.get? n = some f ∧ ∀ v k, p.holdsInt v → σ v = some k →
          f.get v = .nac ∨ f.get v = .constant k := by
  obtain ⟨⟨c, facts⟩, hok, rfl, hfixed⟩ :=
    analyze_fixed hb fun v hv => (hparams m b hb v hv).lt
  refine ⟨facts, hok, fun σ₀ henters trace n σ hrun => ?_⟩
  have hstart : ∃ f, facts.ins.get? (.entry m) = some f ∧ f.Covers p σ₀ := by
    obtain ⟨x, hx, _, hle, _⟩ :=
      hfixed.defined (.entry m) (Cfg.mem_nodes.mpr (.inl rfl))
    have hstartFact : Dataflow.startFact (Cfg.ofBody m b).graph (analysis p) (.entry m) =
        boundary p (.entry m) := if_pos (List.mem_singleton.mpr rfl)
    have hboundary : (boundary p (.entry m)).Covers p σ₀ := by
      intro v k hv hk
      have hassigned : σ₀ v ≠ none := by simp [hk]
      have hparam := ((henters v).mp hassigned).1
      refine .inl ?_
      rw [get_boundary]
      show (if v ∈ paramsOf p m ∧ p.holdsInt v then _ else _) = _
      rw [paramsOf_eq hb, if_pos ⟨hparam, hv⟩]
    rw [hstartFact] at hle
    exact ⟨x, hx, hboundary.mono hle⟩
  refine hrun.invariant (I := fun n σ => ∃ f, facts.ins.get? n = some f ∧ f.Covers p σ) hstart ?_ ?_
  · intro s k flow ⟨f, hf, hcovers⟩ hedge
    exact covers_edge hfixed hedge hf hcovers
  · intro i stmt s w flow t k ⟨f, hf, hcovers⟩ hstmt hexec hedge
    obtain ⟨_, flow', t', heq, hupdates, _⟩ := hexec
    cases heq
    refine covers_edge hfixed hedge hf ?_
    have hat : p.stmtAt? (.stmt m i) = some stmt := by
      rw [Program.stmtAt?_stmt, hb]
      exact hstmt
    show (transfer p (.stmt m i) f).Covers p t
    unfold transfer
    rw [hat]
    exact covers_transferStmt hints hstmt hcovers hupdates

/-- In the sample, control arrives after `i = 1` with 1 in `i`. -/
theorem analyze_sound_sample : ∃ facts f,
    (analyze .sample ⟨1⟩).result = .ok (Cfg.ofBody ⟨1⟩ .sample, facts) ∧
      facts.ins.get? (.stmt ⟨1⟩ 3) = some f ∧ (f.get ⟨7⟩ = .nac ∨ f.get ⟨7⟩ = .constant 1) := by
  have hints : Program.sample.IntsFromInts .sample := by
    intro i x e hs hx hcopies
    have hmem := Array.mem_toList_iff.mpr (Array.mem_of_getElem? hs)
    rcases hcopies with ⟨v, rfl⟩ | ⟨c, rfl⟩
    · simp [Body.sample] at hmem
    · have hc : x = ⟨8⟩ ∧ c = ⟨.add, ⟨7⟩, ⟨2⟩⟩ ∨ x = ⟨2⟩ ∧ c = ⟨.add, ⟨2⟩, ⟨7⟩⟩ := by
        simpa [Body.sample] using hmem
      rcases hc with ⟨-, rfl⟩ | ⟨-, rfl⟩
      · decide
      · decide
  obtain ⟨facts, hok, hsound⟩ :=
    analyze_sound Program.proper_sample.params (m := ⟨1⟩) (b := .sample) rfl hints
  let σ₀ : Ints := fun v => if v = ⟨2⟩ then some 5 else none
  have henters : Program.sample.Enters .sample σ₀ := by
    intro v
    by_cases hv : v = ⟨2⟩
    · subst hv
      decide
    · simp [σ₀, hv, Body.sample]
  have hentered : Run Program.sample.intDynamics ⟨1⟩ .sample σ₀ _ (some (.stmt ⟨1⟩ 0, σ₀)) :=
    .enter .start (Cfg.mem_edges.mpr (.inl rfl))
  have hallocated : Run Program.sample.intDynamics ⟨1⟩ .sample σ₀ _ (some (.stmt ⟨1⟩ 1, σ₀)) :=
    .step (w := ()) hentered rfl
      ⟨Program.executable_of_uses_nil _ rfl rfl, .fallThrough, σ₀, rfl, rfl, trivial⟩
      (Cfg.mem_edges.mpr (.inr ⟨0, _, rfl, List.mem_singleton.mpr rfl⟩))
  have hreceiver : Program.sample.holdsInt ⟨3⟩ = false := by decide
  have hcall : Program.sample.Executable
      (.invoke (some ⟨4⟩) ⟨.virtual, ⟨⟨0⟩, "A id(A)"⟩, some ⟨3⟩, [⟨3⟩]⟩) σ₀ := by
    refine ⟨fun v hv hint => ?_, fun v hv => by cases hv⟩
    have hv : v = ⟨3⟩ := by simpa [Stmt.uses] using hv
    rw [hv, hreceiver] at hint
    cases hint
  have hcalled : Run Program.sample.intDynamics ⟨1⟩ .sample σ₀ _ (some (.stmt ⟨1⟩ 2, σ₀)) :=
    .step (w := ()) hallocated rfl ⟨hcall, .fallThrough, σ₀, rfl, rfl, trivial⟩
      (Cfg.mem_edges.mpr (.inr ⟨1, _, rfl, List.mem_singleton.mpr rfl⟩))
  have hassigned : Run Program.sample.intDynamics ⟨1⟩ .sample σ₀ _
      (some (.stmt ⟨1⟩ 3, σ₀.assign ⟨7⟩ 1)) :=
    .step (w := ()) hcalled rfl
      ⟨Program.executable_of_uses_nil _ rfl rfl, .fallThrough, _, rfl, ⟨1, rfl, rfl⟩, trivial⟩
      (Cfg.mem_edges.mpr (.inr ⟨2, _, rfl, List.mem_singleton.mpr rfl⟩))
  obtain ⟨f, hf, hcovers⟩ := hsound σ₀ henters _ _ _ hassigned
  exact ⟨facts, f, hok, hf, hcovers ⟨7⟩ 1 (by decide) (if_pos rfl)⟩

end Constant
end ProgramAnalysis
