import ProgramAnalysis.Proofs.Constant.Fixpoint
import ProgramAnalysis.Proofs.Dataflow.LeastSolution

/-! The facts of constant propagation and their equations. What a node carries is always the
transfer of what has gathered there, and that is never below what its predecessors leave; it is
exactly the meet of these unless a variable is assigned a quotient. Division is not monotone: `nac`
divided by `undef` is `nac`, but divided by zero it is `undef`, so that what has gathered from a
division may have lost its ground. -/
namespace ProgramAnalysis

namespace Value

variable {x x' y y' : Value} {op : BinOp}

theorem meet_eq_right_iff : x.meet y = y ↔ x = .undef ∨ x = y ∨ y = .nac := by
  constructor
  · intro h
    cases x with
    | undef => exact .inl rfl
    | nac => exact .inr (.inr (h ▸ nac_meet y))
    | constant m =>
      cases y with
      | undef => cases h
      | nac => exact .inr (.inr rfl)
      | constant n =>
        simp only [meet] at h
        split at h
        · next heq => exact .inr (.inl (congrArg constant heq))
        · cases h
  · rintro (rfl | rfl | rfl)
    · exact undef_meet y
    · exact meet_self x
    · exact meet_nac x

/-- An operator on values, but for division by a known zero: without a value as long as an operand has
none, unless the other is `nac`. -/
def lift (op : BinOp) (x y : Value) : Value :=
  match x, y with
  | .nac, _ | _, .nac => .nac
  | .constant m, .constant n => .constant (apply op m n)
  | _, _ => .undef

theorem evalBinary_eq_lift (h : (op.isDivision && y == .constant 0) = false) :
    evalBinary op x y = lift op x y := by
  unfold evalBinary
  rw [h]
  rfl

theorem lift_mono (hx : x.meet x' = x') (hy : y.meet y' = y') :
    (lift op x y).meet (lift op x' y') = lift op x' y' := by
  rw [meet_eq_right_iff] at *
  rcases hx with rfl | rfl | rfl
  · cases y with
    | nac =>
      have hy' : y' = .nac := by
        rcases hy with h | h | h
        · cases h
        · exact h.symm
        · exact h
      subst hy'
      cases x' <;> exact .inr (.inl rfl)
    | undef | constant n => exact .inl rfl
  · rcases hy with rfl | rfl | rfl
    · cases x with
      | nac => exact .inr (.inl rfl)
      | undef | constant m => exact .inl rfl
    · exact .inr (.inl rfl)
    · exact .inr (.inr (by cases x <;> rfl))
  · exact .inr (.inr rfl)

/-- Operators other than division are monotone. -/
theorem evalBinary_mono (hop : op.isDivision = false) (hx : x.meet x' = x') (hy : y.meet y' = y') :
    (evalBinary op x y).meet (evalBinary op x' y') = evalBinary op x' y' := by
  have hlift : ∀ x y, evalBinary op x y = lift op x y := fun x y =>
    evalBinary_eq_lift (by rw [hop, Bool.false_and])
  rw [hlift, hlift]
  exact lift_mono hx hy

end Value

theorem Fact.set_mono {f g : Fact} {x y : Value} (h : f.meet g = g) (hxy : x.meet y = y)
    (v : VarId) : (f.set v x).meet (g.set v y) = g.set v y := by
  refine ext fun w => ?_
  rw [get_meet, get_set, get_set]
  split
  · exact hxy
  · rw [← get_meet, h]

/-- The node does not assign a quotient or a remainder to a variable that holds an int. -/
def Program.DivisionFreeAt (p : Program) (n : Node) : Prop :=
  ∀ x c, p.stmtAt? n = some (.assign x (.binary c)) → p.holdsInt x → c.op.isDivision = false

/-- No variable that holds an int is assigned a quotient or a remainder. -/
def Program.DivisionFree (p : Program) (b : Body) : Prop :=
  ∀ i x c, b.stmt? i = some (.assign x (.binary c)) → p.holdsInt x → c.op.isDivision = false

namespace Constant

variable {p : Program} {m : MethodId} {b : Body} {f g : Fact} {s : Stmt}

theorem evaluate_mono {e : Expr} (hdivision : ∀ c, e = .binary c → c.op.isDivision = false)
    (h : f.meet g = g) : (evaluate e f).meet (evaluate e g) = evaluate e g := by
  have hget : ∀ v, (f.get v).meet (g.get v) = g.get v := fun v => by rw [← Fact.get_meet, h]
  cases e with
  | var v => exact hget v
  | binary c => exact Value.evalBinary_mono (hdivision c rfl) (hget c.lhs) (hget c.rhs)
  | int n => exact Value.meet_self _
  | null | neg v | cast ty v | instanceOf v ty | new ty | field base f | element base i
  | length v => rfl

theorem transferStmt_mono
    (hdivision : ∀ x c, s = .assign x (.binary c) → p.holdsInt x → c.op.isDivision = false)
    (h : f.meet g = g) : (transferStmt p s f).meet (transferStmt p s g) = transferStmt p s g := by
  cases s with
  | assign x e =>
    simp only [transferStmt]
    split
    · next hx =>
      refine Fact.set_mono h (evaluate_mono (fun c he => ?_) h) x
      exact hdivision x c (he ▸ rfl) hx
    · exact h
  | invoke result call =>
    cases result with
    | none => exact h
    | some x =>
      simp only [transferStmt]
      split
      · exact Fact.set_mono h (Value.meet_self _) x
      · exact h
  | store l v | branch c t | goto t | switch v cases d | ret v | nop => exact h

theorem transfer_mono {n : Node} (hdivision : p.DivisionFreeAt n) (h : f.meet g = g) :
    (transfer p n f).meet (transfer p n g) = transfer p n g := by
  unfold transfer
  split
  · next s hs => exact transferStmt_mono (fun x c heq => hdivision x c (heq ▸ hs)) h
  · exact h

theorem divisionFreeAt (hb : p.body? m = some b) (hdivision : p.DivisionFree b) {n : Node}
    (hn : n ∈ (Cfg.ofBody m b).graph.nodes) : p.DivisionFreeAt n := by
  intro x c hs
  rcases Cfg.mem_nodes.mp hn with rfl | rfl | ⟨i, _, rfl⟩
  · cases hs
  · cases hs
  · rw [Program.stmtAt?_stmt, hb] at hs
    exact hdivision i x c hs

theorem monotone (hb : p.body? m = some b) (hdivision : p.DivisionFree b) :
    Dataflow.Monotone (Cfg.ofBody m b).graph (analysis p) where
  carry _ _ _ _ h := h
  transfer _ hn _ _ h := transfer_mono (divisionFreeAt hb hdivision hn) h

/-- What the predecessors of a node leave, met variable by variable. -/
def meetOfPreds (g : FlowGraph) (outs : Node → Fact) (n : Node) : Fact :=
  ((g.preds n).map outs).foldr Fact.meet .empty

theorem startFact_of_ne {n : Node} (hn : n ≠ .entry m) :
    Dataflow.startFact (Cfg.ofBody m b).graph (analysis p) n = .empty :=
  if_neg fun h => hn (List.mem_singleton.mp h)

theorem heeded {e : FlowEdge} (he : e ∈ (Cfg.ofBody m b).graph.edges) :
    Dataflow.Heeded (Cfg.ofBody m b).graph (analysis p) e :=
  .inl fun h => Cfg.target_ne_entry he (List.mem_singleton.mp h)

/-- Over the graph of a body, what edges bring is what predecessors leave. -/
theorem join_eq (outs : Node → Fact) (n : Node) :
    (analysis p).join (fun e => outs (Dataflow.origin (analysis p) e))
      ((Cfg.ofBody m b).graph.edges.filter fun e => Dataflow.goal (analysis p) e = n) .empty =
    meetOfPreds (Cfg.ofBody m b).graph outs n := by
  unfold meetOfPreds Graph.preds
  rw [List.map_map, List.foldr_map]
  rfl

/-- The analysis does not fail. What a node carries is the transfer of what has gathered there, and
what has gathered lies above the meet of the predecessors; without division it is that meet. -/
theorem analyze_equations (hb : p.body? m = some b)
    (hparams : ∀ v ∈ b.params, v.index < p.vars.size) :
    ∃ facts ins outs, (analyze p m).result = .ok (Cfg.ofBody m b, facts) ∧
      facts.Gives (Cfg.ofBody m b).graph ins outs ∧
      (∀ n ∈ (Cfg.ofBody m b).graph.nodes, outs n = transfer p n (ins n)) ∧
      (∀ n ∈ (Cfg.ofBody m b).graph.nodes, n ≠ .entry m →
        (meetOfPreds (Cfg.ofBody m b).graph outs n).meet (ins n) = ins n) ∧
      (p.DivisionFree b → ∀ n ∈ (Cfg.ofBody m b).graph.nodes, n ≠ .entry m →
        ins n = meetOfPreds (Cfg.ofBody m b).graph outs n) := by
  have hl := laws p m b
  have hclosed := Cfg.closed_ofBody m b
  let g := (Cfg.ofBody m b).graph
  let facts := Dataflow.solve g (analysis p)
  let ins := Dataflow.factAt (analysis p) facts.ins
  let outs := Dataflow.factAt (analysis p) facts.outs
  have hfixed : Dataflow.Fixed g (analysis p) (Fact.Within p) facts.ins facts.outs :=
    Dataflow.solve_fixed hl hclosed
  have hgives : facts.Gives g ins outs := Dataflow.solve_gives hl hclosed
  refine ⟨facts, ins, outs, analyze_eq hb hparams, hgives, fun n hn => ?_, fun n hn hentry => ?_,
    fun hdivision n hn hentry => ?_⟩
  · obtain ⟨x, hx, _, _, hy⟩ := hfixed.defined n hn
    show Dataflow.factAt _ _ n = transfer p n (Dataflow.factAt _ _ n)
    rw [Dataflow.factAt_eq hx, Dataflow.factAt_eq hy]
    rfl
  · rw [← join_eq (p := p)]
    refine hl.join_le_iff.mpr ⟨hl.initial_meet _, fun e he => ?_⟩
    obtain ⟨hmem, rfl⟩ := Dataflow.mem_goal_filter.mp he
    obtain ⟨hsource, htarget⟩ := hclosed e hmem
    exact hfixed.fed e hmem (heeded hmem) _ _ (hgives _ hsource).2 (hgives _ htarget).1
  · obtain ⟨hbalanced, -⟩ := Dataflow.run_balanced hl hclosed (monotone hb hdivision)
      (fun e he => heeded he) rfl
    have hjoin := hbalanced.join n hn
    rw [startFact_of_ne hentry] at hjoin
    exact hjoin.trans (join_eq outs n)

theorem analyze_equations_sample : ∃ facts ins outs,
    (analyze .sample ⟨1⟩).result = .ok (Cfg.ofBody ⟨1⟩ .sample, facts) ∧
      facts.Gives (Cfg.ofBody ⟨1⟩ .sample).graph ins outs ∧
      ∀ n ∈ (Cfg.ofBody ⟨1⟩ .sample).graph.nodes, outs n = transfer .sample n (ins n) ∧
        (n ≠ .entry ⟨1⟩ → ins n = meetOfPreds (Cfg.ofBody ⟨1⟩ .sample).graph outs n) := by
  have hdivision : Program.sample.DivisionFree .sample := by
    intro i x c hs _
    rcases Program.binary_sample hs with ⟨-, rfl⟩ | ⟨-, rfl⟩ <;> rfl
  obtain ⟨facts, ins, outs, hok, hgives, htransfer, -, hmeet⟩ :=
    analyze_equations (p := .sample) (m := ⟨1⟩) (b := .sample) rfl (by decide)
  exact ⟨facts, ins, outs, hok, hgives, fun n hn => ⟨htransfer n hn, hmeet hdivision n hn⟩⟩

/-- `loop: x = p / y; y = 0; goto loop`. -/
def quotients : Body where
  this := none
  params := [⟨0⟩]
  stmts := #[.assign ⟨1⟩ (.binary ⟨.div, ⟨0⟩, ⟨2⟩⟩), .assign ⟨2⟩ (.int 0), .goto 0]

def quotientsBuilder : Builder where
  classes := #[⟨"C", none, [], false, false, [("void m(int)", ⟨0⟩)], []⟩]
  fields := #[]
  methods := #[⟨"void m(int)", ⟨0⟩, true, false, some quotients⟩]
  vars := #[⟨"p", .int, ⟨0⟩⟩, ⟨"x", .int, ⟨0⟩⟩, ⟨"y", .int, ⟨0⟩⟩]
  entry := none
  root := none

theorem accepted_quotients : quotientsBuilder.program.Accepted := by
  have hmethod := (Builder.Built.empty.addClass "C" none).addMethod
    (rfl : Builder.addMethod _ ⟨0⟩ "void m(int)" true = .ok (_, _))
  have hvars := ((hmethod.addVar ⟨0⟩ "p" .int).addVar ⟨0⟩ "x" .int).addVar ⟨0⟩ "y" .int
  have hbody := hvars.setBody (rfl : Builder.setBody _ ⟨0⟩ quotients = .ok _)
  exact ⟨quotientsBuilder, hbody, rfl⟩

/-- On the first visit `y` is `undef` and `x` becomes `nac`. That stays behind the division, although
`x = p / 0` has no value in the end. -/
theorem analyze_misses_equation : quotientsBuilder.program.Accepted ∧
    ∃ facts ins outs, (analyze quotientsBuilder.program ⟨0⟩).result =
        .ok (Cfg.ofBody ⟨0⟩ quotients, facts) ∧
      facts.Gives (Cfg.ofBody ⟨0⟩ quotients).graph ins outs ∧
      (ins (.stmt ⟨0⟩ 1)).get ⟨1⟩ = .nac ∧
      (meetOfPreds (Cfg.ofBody ⟨0⟩ quotients).graph outs (.stmt ⟨0⟩ 1)).get ⟨1⟩ = .undef := by
  have hok := analyze_eq (p := quotientsBuilder.program) (m := ⟨0⟩) (b := quotients) rfl (by decide)
  have hgives := Dataflow.solve_gives (laws quotientsBuilder.program ⟨0⟩ quotients)
    (Cfg.closed_ofBody ⟨0⟩ quotients)
  refine ⟨accepted_quotients, _, _, _, hok, hgives, ?_, ?_⟩
  · decide +kernel
  · decide +kernel

end Constant
end ProgramAnalysis
