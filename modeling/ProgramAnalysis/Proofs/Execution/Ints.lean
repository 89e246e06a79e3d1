import ProgramAnalysis.Constant.Intra
import ProgramAnalysis.Proofs.Execution.Arithmetic
import ProgramAnalysis.Proofs.Execution.Run

/-! Runs that follow the variables that hold an int. What is not computed from ints (a field, a
call, an operand of another type) may have any value, and a condition on it may go either way. -/
namespace ProgramAnalysis

/-- The values of the int-holding variables assigned so far. -/
abbrev Ints := VarId → Option Int32

namespace Ints

variable {σ : Ints} {v w : VarId} {k : Int32}

def assign (σ : Ints) (x : VarId) (k : Int32) : Ints := fun v => if x = v then some k else σ v

/-- The exact result of `lhs op rhs`, if both are assigned and it is no division by zero. -/
def compute (σ : Ints) (b : Binary) : Option Int32 := do b.op.run (← σ b.lhs) (← σ b.rhs)

/-- The values that an expression may have. -/
def Gives (σ : Ints) : Expr → Int32 → Prop
  | .int n, k => k = n
  | .var v, k => σ v = some k
  | .binary b, k => σ.compute b = some k
  | _, _ => True

/-- The values that a statement may give to the variable that it defines. -/
def Defines (σ : Ints) : Stmt → Int32 → Prop
  | .assign _ e, k => σ.Gives e k
  | _, _ => True

end Ints

/-- The variable that a statement divides by. -/
def Stmt.divisor? : Stmt → Option VarId
  | .assign _ (.binary b) | .branch b _ => if b.op.isDivision then some b.rhs else none
  | _ => none

namespace Program

variable (p : Program)

/-- No int-holding variable is read before it is assigned, and there is no division by zero. -/
structure Executable (s : Stmt) (σ : Ints) : Prop where
  assigned : ∀ v ∈ s.uses, p.holdsInt v → σ v ≠ none
  divisor : ∀ v, s.divisor? = some v → σ v ≠ some 0

/-- What reads nothing can be executed. -/
theorem executable_of_uses_nil {s : Stmt} {σ : Ints} (huses : s.uses = [])
    (hdivisor : s.divisor? = none) : p.Executable s σ := by
  refine ⟨fun v hv => ?_, fun v hv => ?_⟩
  · rw [huses] at hv
    cases hv
  · rw [hdivisor] at hv
    cases hv

/-- What a statement changes: an int-holding variable that it defines. -/
def Updates (s : Stmt) (σ τ : Ints) : Prop :=
  match s.def? with
  | some x => if p.holdsInt x then ∃ k, σ.Defines s k ∧ τ = σ.assign x k else τ = σ
  | none => τ = σ

/-- Conditions on ints select an edge; other statements, and other conditions, do not. -/
def Selects (s : Stmt) (σ : Ints) (flow : Flow) : Prop :=
  match s with
  | .branch c _ => p.holdsInt c.lhs → p.holdsInt c.rhs →
      ∃ k, σ.compute c = some k ∧ flow = if k = 0 then .ifFalse else .ifTrue
  | .switch v cases _ => p.holdsInt v →
      ∃ k, σ v = some k ∧
        flow = if k ∈ cases.map (·.1) then .switchCase k else .switchDefault
  | _ => True

/-- A run ends where a statement cannot be executed. -/
def intDynamics : Dynamics Ints Unit := fun s σ _ r =>
  p.Executable s σ ∧ ∃ flow τ, r = some (flow, τ) ∧ p.Updates s σ τ ∧ p.Selects s σ flow

/-- At the entry, int-holding parameters have any value, and nothing else is assigned. -/
def Enters (b : Body) (σ : Ints) : Prop := ∀ v, σ v ≠ none ↔ v ∈ b.params ∧ p.holdsInt v

/-- Assignments compute ints from ints. -/
def IntsFromInts (b : Body) : Prop :=
  ∀ i x e, b.stmt? i = some (.assign x e) → p.holdsInt x →
    (∃ v, e = .var v) ∨ (∃ c, e = .binary c) → ∀ v ∈ e.vars, p.holdsInt v

end Program
end ProgramAnalysis
