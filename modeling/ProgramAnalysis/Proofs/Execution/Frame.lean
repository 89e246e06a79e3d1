import ProgramAnalysis.Proofs.Dataflow.Cfg
import ProgramAnalysis.Proofs.Execution.Ints
import ProgramAnalysis.Proofs.Execution.World

/-! Runs over the variables of all types that have been assigned so far. A variable holds an int
exactly when its type does. Operations on ints are exact; comparisons and shifts of anything else
give what the world computes; all other outcomes may be any. On its ints such a run is one of ints,
as long as these are computed from ints. -/
namespace ProgramAnalysis

def BinOp.isShift : BinOp → Bool
  | .shl | .shr | .ushr => true
  | _ => false

variable {α : Type}

def Datum.int? : Datum α → Option Int32
  | .int n => some n
  | .other _ => none

/-- The value is of the kind that the variable holds. -/
def Program.Fits (p : Program) (v : VarId) : Datum α → Prop
  | .int _ => p.holdsInt v
  | .other _ => ¬ p.holdsInt v

instance (p : Program) (v : VarId) : (d : Datum α) → Decidable (p.Fits v d)
  | .int _ => inferInstanceAs (Decidable (p.holdsInt v = true))
  | .other _ => inferInstanceAs (Decidable (¬ p.holdsInt v = true))

namespace World

variable (W : World)

/-- The values of the variables assigned so far. -/
abbrev Frame : Type := VarId → Option (Datum W.Other)

/-- A division of ints by zero gives nothing. -/
def Yields (op : BinOp) : Datum W.Other → Datum W.Other → Datum W.Other → Prop
  | .int m, .int n, d => (op.run m n).map .int = some d
  | x, y, d => op.isComparison ∨ op.isShift → d = W.compute op x y

variable {W}

namespace Frame

def assign (σ : W.Frame) (x : VarId) (d : Datum W.Other) : W.Frame := fun v =>
  if x = v then some d else σ v

/-- The values that an operation on two variables may have. -/
def Combines (σ : W.Frame) (c : Binary) (d : Datum W.Other) : Prop :=
  ∃ x y, σ c.lhs = some x ∧ σ c.rhs = some y ∧ W.Yields c.op x y d

/-- The values that an expression may have. -/
def Gives (σ : W.Frame) : Expr → Datum W.Other → Prop
  | .int n, d => d = .int n
  | .var v, d => σ v = some d
  | .binary c, d => σ.Combines c d
  | _, _ => True

/-- The values that a statement may give to the variable that it defines. -/
def Defines (σ : W.Frame) : Stmt → Datum W.Other → Prop
  | .assign _ e, d => σ.Gives e d
  | _, _ => True

/-- Conditions select an edge by the values of their operands. -/
def Selects (σ : W.Frame) (s : Stmt) (flow : Flow) : Prop :=
  match s with
  | .branch c _ => ∃ d, σ.Combines c d ∧
      (W.Nonzero d ∧ flow = .ifTrue ∨ ¬ W.Nonzero d ∧ flow = .ifFalse)
  | .switch v cases _ => ∃ d, σ v = some d ∧
      ((∃ k ∈ cases.map (·.1), W.IsCase d k ∧ flow = .switchCase k) ∨
        (∀ k ∈ cases.map (·.1), ¬ W.IsCase d k) ∧ flow = .switchDefault)
  | _ => True

def ints (σ : W.Frame) : Ints := fun v => (σ v).bind Datum.int?

end Frame
end World

namespace Program

variable {W : World} (p : Program)

/-- Variables hold values of their kind. -/
def Holds (σ : W.Frame) : Prop := ∀ v d, σ v = some d → p.Fits v d

/-- What a statement changes. A value of another kind than the variable's is converted, to any value
of that kind. -/
def Stores (s : Stmt) (σ τ : W.Frame) : Prop :=
  match s.def? with
  | some x => ∃ d d', σ.Defines s d ∧ p.Fits x d' ∧ (p.Fits x d → d' = d) ∧ τ = σ.assign x d'
  | none => τ = σ

variable (W) in
/-- A run ends where a statement reads what is not assigned, or divides an int by zero. -/
def frameDynamics : Dynamics W.Frame Unit := fun s σ _ r =>
  (∀ v ∈ s.uses, σ v ≠ none) ∧ ∃ flow τ, r = some (flow, τ) ∧ p.Stores s σ τ ∧ σ.Selects s flow

/-- At the entry, the parameters have any value, and apart from them only `this` may be assigned: it
is a reference. -/
structure Opens (b : Body) (σ : W.Frame) : Prop where
  holds : p.Holds σ
  params : ∀ v ∈ b.params, σ v ≠ none
  assigned : ∀ v, σ v ≠ none → v ∈ b.params ∨ b.this = some v ∧ ¬ p.holdsInt v

end Program

variable {p : Program} {W : World} {σ τ : W.Frame} {v x : VarId} {k : Int32} {d : Datum W.Other}
  {e : Expr} {s : Stmt}

theorem Program.Fits.exists_int (h : p.Fits x d) (hx : p.holdsInt x) : ∃ k, d = .int k := by
  cases d with
  | int k => exact ⟨k, rfl⟩
  | other a => exact absurd hx h

theorem Program.Fits.int?_eq_none (h : p.Fits x d) (hx : ¬ p.holdsInt x) : d.int? = none := by
  cases d with
  | int k => exact absurd h hx
  | other a => rfl

/-! ### The ints of a frame -/

namespace World.Frame

theorem ints_eq_some_iff : σ.ints v = some k ↔ σ v = some (.int k) := by
  unfold ints
  cases hv : σ v with
  | none => simp
  | some d => cases d <;> simp [Datum.int?]

theorem ints_assign (d : Datum W.Other) (v : VarId) :
    (σ.assign x d).ints v = if x = v then d.int? else σ.ints v := by
  unfold ints assign
  by_cases hx : x = v
  · simp [hx]
  · simp [hx]

theorem ints_assign_int : (σ.assign x (.int k)).ints = σ.ints.assign x k := by
  funext v
  rw [ints_assign]
  rfl

/-- A variable that holds no int does not show. -/
theorem ints_assign_of_not (hσ : p.Holds σ) (hx : ¬ p.holdsInt x) (hd : p.Fits x d) :
    (σ.assign x d).ints = σ.ints := by
  funext v
  rw [ints_assign]
  split
  · next heq =>
    subst heq
    rw [hd.int?_eq_none hx]
    symm
    rw [Option.eq_none_iff_forall_ne_some]
    intro k hk
    exact hx (hσ x _ (ints_eq_some_iff.mp hk))
  · rfl

theorem exists_ints (hσ : p.Holds σ) (hv : p.holdsInt v) (hd : σ v = some d) :
    ∃ k, d = .int k ∧ σ.ints v = some k := by
  obtain ⟨k, rfl⟩ := (hσ v d hd).exists_int hv
  exact ⟨k, rfl, ints_eq_some_iff.mpr hd⟩

/-- What is computed from ints is an int, and what the ints of the frame give. -/
theorem Gives.ints (hσ : p.Holds σ)
    (hints : (∃ v, e = .var v) ∨ (∃ c, e = .binary c) → ∀ v ∈ e.vars, p.holdsInt v)
    (h : σ.Gives e d) (hkept : ∀ n, d = .int n → k = n) : σ.ints.Gives e k := by
  cases e with
  | int n => exact hkept n h
  | var v =>
    obtain ⟨n, hn, hv⟩ := exists_ints hσ (hints (.inl ⟨v, rfl⟩) v List.mem_cons_self) h
    rw [hkept n hn]
    exact hv
  | binary c =>
    have hvars := hints (.inr ⟨c, rfl⟩)
    obtain ⟨x, y, hx, hy, hyields⟩ := h
    obtain ⟨i, rfl, hi⟩ := exists_ints hσ (hvars c.lhs (by simp [Expr.vars])) hx
    obtain ⟨j, rfl, hj⟩ := exists_ints hσ (hvars c.rhs (by simp [Expr.vars])) hy
    obtain ⟨n, hn, heq⟩ := Option.map_eq_some_iff.mp hyields
    rw [hkept n heq.symm]
    show σ.ints.compute c = some n
    unfold Ints.compute
    rw [hi, hj]
    exact hn
  | null | neg v | cast ty v | instanceOf v ty | new ty | field base f | element base i
  | length v => trivial

end World.Frame

namespace Program

theorem Holds.assign (hσ : p.Holds σ) (hd : p.Fits x d) : p.Holds (σ.assign x d) := by
  intro v d' hv
  unfold World.Frame.assign at hv
  split at hv
  · next heq =>
    cases hv
    exact heq ▸ hd
  · exact hσ v d' hv

theorem Stores.holds (hσ : p.Holds σ) (h : p.Stores s σ τ) : p.Holds τ := by
  unfold Stores at h
  split at h
  · obtain ⟨_, _, _, hd', _, rfl⟩ := h
    exact hσ.assign hd'
  · exact h ▸ hσ

/-- On its ints, a step is one of ints. -/
theorem Stores.updates (hσ : p.Holds σ)
    (hints : ∀ x e, s = .assign x e → p.holdsInt x →
      (∃ v, e = .var v) ∨ (∃ c, e = .binary c) → ∀ v ∈ e.vars, p.holdsInt v)
    (h : p.Stores s σ τ) : p.Updates s σ.ints τ.ints := by
  unfold Stores at h
  unfold Updates
  cases hdef : s.def? with
  | none =>
    rw [hdef] at h
    exact congrArg World.Frame.ints h
  | some x =>
    rw [hdef] at h
    obtain ⟨d, d', hd, hd', hkept, rfl⟩ := h
    dsimp only
    by_cases hx : p.holdsInt x = true
    · rw [if_pos hx]
      obtain ⟨k, rfl⟩ := hd'.exists_int hx
      refine ⟨k, ?_, World.Frame.ints_assign_int⟩
      have hint : ∀ n, d = .int n → k = n := by
        rintro n rfl
        exact Datum.int.inj (hkept hx)
      cases s with
      | assign y e =>
        cases hdef
        exact hd.ints hσ (hints x e rfl hx) hint
      | invoke result call => trivial
      | store l y | branch c t | goto t | switch y cases d | ret y | nop => cases hdef
    · rw [if_neg hx]
      exact World.Frame.ints_assign_of_not hσ hx hd'

theorem Stores.assign (h : σ.Gives e d) (hd : p.Fits x d) :
    p.Stores (.assign x e) σ (σ.assign x d) :=
  ⟨d, d, h, hd, fun _ => rfl, rfl⟩

theorem Stores.invoke {call : Call} (hd : p.Fits x d) :
    p.Stores (.invoke (some x) call) σ (σ.assign x d) :=
  ⟨d, d, trivial, hd, fun _ => rfl, rfl⟩

/-- A run goes on along an edge that its statement selects. -/
theorem frame_step {m : MethodId} {b : Body} {σ₀ : W.Frame} {trace : List (Visit Unit)} {i : Nat}
    (flow : Flow) (k : Node)
    (hrun : Run (p.frameDynamics W) m b σ₀ trace (some (.stmt m i, σ)))
    (hs : b.stmt? i = some s) (huses : ∀ v ∈ s.uses, (σ v).isSome) (hstores : p.Stores s σ τ)
    (hselects : σ.Selects s flow)
    (hedge : Edge.within (.stmt m i) k flow ∈ Cfg.edgesOf m b.size i s) :
    Run (p.frameDynamics W) m b σ₀ (trace ++ [⟨.stmt m i, some (), some flow⟩]) (some (k, τ)) := by
  refine .step hrun hs ⟨fun v hv hnone => ?_, flow, τ, rfl, hstores, hselects⟩
    ((Cfg.mem_edgesOf hs).mp hedge).1
  have hsome := huses v hv
  rw [hnone] at hsome
  cases hsome

end Program
end ProgramAnalysis
