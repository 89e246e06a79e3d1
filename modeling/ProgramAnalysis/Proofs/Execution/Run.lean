import ProgramAnalysis.Dataflow.Cfg

/-! Finite runs of a body along its control-flow graph. What statements do to a state, and which way
they let control leave, is given by the dynamics: each analysis is about its own kind of state. -/
namespace ProgramAnalysis

/-- `D s σ w r`: executed in `σ`, the statement `s` does `w`, and control goes on along a flow in a
new state or, without a result, nowhere. -/
abbrev Dynamics (σ ω : Type) := Stmt → σ → ω → Option (Flow × σ) → Prop

/-- A node that was executed, what was done there, and how control left it. -/
structure Visit (ω : Type) where
  node : Node
  act : Option ω
  flow : Option Flow

variable {σ ω : Type}

/-- `Run D m b s₀ trace (some (n, s))`: from `s₀` at the entry, the visits of `trace` lead to where
`n` is about to be executed in `s`. Without a node, the last of them ended the run. -/
inductive Run (D : Dynamics σ ω) (m : MethodId) (b : Body) (s₀ : σ) :
    List (Visit ω) → Option (Node × σ) → Prop
  | start : Run D m b s₀ [] (some (.entry m, s₀))
  | enter {trace : List (Visit ω)} {s : σ} {k : Node} {flow : Flow} :
      Run D m b s₀ trace (some (.entry m, s)) →
      Edge.within (.entry m) k flow ∈ (Cfg.ofBody m b).graph.edges →
      Run D m b s₀ (trace ++ [⟨.entry m, none, some flow⟩]) (some (k, s))
  | step {trace : List (Visit ω)} {i : Nat} {stmt : Stmt} {s t : σ} {w : ω} {k : Node}
      {flow : Flow} :
      Run D m b s₀ trace (some (.stmt m i, s)) → b.stmt? i = some stmt →
      D stmt s w (some (flow, t)) →
      Edge.within (.stmt m i) k flow ∈ (Cfg.ofBody m b).graph.edges →
      Run D m b s₀ (trace ++ [⟨.stmt m i, some w, some flow⟩]) (some (k, t))
  | halt {trace : List (Visit ω)} {i : Nat} {stmt : Stmt} {s : σ} {w : ω} :
      Run D m b s₀ trace (some (.stmt m i, s)) → b.stmt? i = some stmt → D stmt s w none →
      Run D m b s₀ (trace ++ [⟨.stmt m i, some w, none⟩]) none

variable {D : Dynamics σ ω} {m : MethodId} {b : Body} {s₀ : σ}

/-- What holds at the entry and is kept along edges holds wherever control arrives. -/
theorem Run.invariant {I : Node → σ → Prop} (hstart : I (.entry m) s₀)
    (henter : ∀ s k flow, I (.entry m) s →
      Edge.within (.entry m) k flow ∈ (Cfg.ofBody m b).graph.edges → I k s)
    (hstep : ∀ i stmt s w flow t k, I (.stmt m i) s → b.stmt? i = some stmt →
      D stmt s w (some (flow, t)) →
      Edge.within (.stmt m i) k flow ∈ (Cfg.ofBody m b).graph.edges → I k t)
    {trace : List (Visit ω)} {n : Node} {s : σ} (hrun : Run D m b s₀ trace (some (n, s))) :
    I n s := by
  generalize hend : some (n, s) = final at hrun
  induction hrun generalizing n s with
  | start =>
    cases hend
    exact hstart
  | enter _ hedge ih =>
    cases hend
    exact henter _ _ _ (ih rfl) hedge
  | step _ hstmt hexec hedge ih =>
    cases hend
    exact hstep _ _ _ _ _ _ _ (ih rfl) hstmt hexec hedge
  | halt => cases hend

end ProgramAnalysis
