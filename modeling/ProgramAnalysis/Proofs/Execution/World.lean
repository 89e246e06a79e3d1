import ProgramAnalysis.Proofs.Execution.Arithmetic
import ProgramAnalysis.Proofs.Execution.Run

/-! Runs over all variables, in a world that computes with what is no int and supplies the outcomes
of loads, allocations, conversions and calls. What a run does is observed: its stores, calls and
returns, the evaluations that may throw, and the conditions it branches on, with their operands. -/
namespace ProgramAnalysis

/-- What a variable holds: an int, or something else. -/
inductive Datum (α : Type) where
  | int (n : Int32)
  | other (a : α)

/-- Computation on what is no int. -/
structure World where
  Other : Type
  null : Datum Other
  negate : Other → Datum Other
  compute : BinOp → Datum Other → Datum Other → Datum Other
  isInstance : Ty → Datum Other → Datum Other
  nonzero : Other → Prop
  isCase : Other → Int32 → Prop

/-- A world with a single thing that is no int. -/
def World.sample : World where
  Other := Unit
  null := .other ()
  negate := .other
  compute _ _ _ := .other ()
  isInstance _ _ := .int 0
  nonzero _ := False
  isCase _ _ := False

/-- An expression that may throw, or that allocates. -/
def Expr.mayThrow : Expr → Bool
  | .new _ | .cast .. | .field .. | .element .. | .length _ => true
  | .binary b => b.op.isDivision
  | _ => false

/-- Of assignments, those are observed whose evaluation may throw. -/
def Stmt.observed : Stmt → Bool
  | .assign _ e => e.mayThrow
  | .goto _ | .nop => false
  | _ => true

namespace World

variable (W : World)

abbrev Store : Type := VarId → Datum W.Other

inductive Outcome where
  | done
  | gave (d : Datum W.Other)
  | thrown

/-- A statement with the values of its operands and what came of it. -/
structure Act where
  stmt : Stmt
  operands : List (Datum W.Other)
  outcome : W.Outcome

def Nonzero : Datum W.Other → Prop
  | .int n => n ≠ 0
  | .other a => W.nonzero a

def IsCase : Datum W.Other → Int32 → Prop
  | .int n, k => n = k
  | .other a, k => W.isCase a k

/-- Exact in 32 bits. -/
def negated : Datum W.Other → Datum W.Other
  | .int n => .int (-n)
  | .other a => W.negate a

/-- Int operations are exact in 32 bits, and a division by zero throws. What other divisions come to
is supplied from outside. -/
def Computes (op : BinOp) : Datum W.Other → Datum W.Other → W.Outcome → Prop
  | .int m, .int n, o => o = ((op.run m n).map Datum.int).elim .thrown .gave
  | x, y, o => op.isDivision ∨ o = .gave (W.compute op x y)

/-- The outcomes of an expression. Those of loads, allocations and conversions come from outside. -/
def Evaluates (σ : W.Store) (e : Expr) (o : W.Outcome) : Prop :=
  match e with
  | .var v => o = .gave (σ v)
  | .int n => o = .gave (.int n)
  | .null => o = .gave W.null
  | .binary b => W.Computes b.op (σ b.lhs) (σ b.rhs) o
  | .neg v => o = .gave (W.negated (σ v))
  | .instanceOf v ty => o = .gave (W.isInstance ty (σ v))
  | .cast .. | .new _ | .field .. | .element .. | .length _ => True

/-- The outcomes of a statement. Those of stores and calls come from outside. -/
def Completes (σ : W.Store) (s : Stmt) (o : W.Outcome) : Prop :=
  match s with
  | .assign _ e => W.Evaluates σ e o ∧ o ≠ .done
  | .branch b _ => W.Computes b.op (σ b.lhs) (σ b.rhs) o ∧ o ≠ .done
  | .invoke (some _) _ => o ≠ .done
  | .invoke none _ | .store .. => o = .done ∨ o = .thrown
  | .goto _ | .switch .. | .ret _ | .nop => o = .done

/-- A branch is taken if its condition is not zero; a switch goes to a matching case if it has
one. -/
def Selects (σ : W.Store) (s : Stmt) (o : W.Outcome) (flow : Flow) : Prop :=
  match s with
  | .branch .. => ∃ d, o = .gave d ∧
      (W.Nonzero d ∧ flow = .ifTrue ∨ ¬ W.Nonzero d ∧ flow = .ifFalse)
  | .switch v cases _ =>
      (∃ k ∈ cases.map (·.1), W.IsCase (σ v) k ∧ flow = .switchCase k) ∨
        (∀ k ∈ cases.map (·.1), ¬ W.IsCase (σ v) k) ∧ flow = .switchDefault
  | _ => True

def act (σ : W.Store) (s : Stmt) (o : W.Outcome) : Option W.Act :=
  if s.observed then some ⟨s, s.uses.map σ, o⟩ else none

/-- A statement that gives a value assigns it to the variable that it defines. -/
def after (σ : W.Store) (s : Stmt) (o : W.Outcome) : W.Store := fun v =>
  match s.def?, o with
  | some x, .gave d => if x = v then d else σ v
  | _, _ => σ v

/-- What throws ends the run. -/
def dynamics : Dynamics W.Store (Option W.Act) := fun s σ w r =>
  ∃ o, W.Completes σ s o ∧ w = W.act σ s o ∧
    (o = .thrown ∧ r = none ∨
      o ≠ .thrown ∧ ∃ flow, W.Selects σ s o flow ∧ r = some (flow, W.after σ s o))

variable {W} {σ τ σ' : W.Store} {s : Stmt} {o : W.Outcome} {w : Option W.Act} {flow : Flow}
  {r : Option (Flow × W.Store)} {v x : VarId} {e : Expr}

/-! ### What a statement changes -/

theorem after_of_ne (h : s.def? ≠ some v) : W.after σ s o v = σ v := by
  unfold after
  split
  · next x d hdef => exact if_neg fun hx : x = v => h (hx ▸ hdef)
  · rfl

theorem Completes.gave (hc : W.Completes σ s o) (hdef : s.def? = some x) (ho : o ≠ .thrown) :
    ∃ d, o = .gave d := by
  have hdone : o ≠ .done := by
    cases s with
    | assign y e => exact hc.2
    | invoke result call =>
      cases result with
      | none => cases hdef
      | some y => exact hc
    | store l y | branch c t | goto t | switch y cases d | ret y | nop => cases hdef
  cases o with
  | done => exact absurd rfl hdone
  | gave d => exact ⟨d, rfl⟩
  | thrown => exact absurd rfl ho

/-- Only a statement that may throw can end a run. -/
theorem Evaluates.ne_thrown (h : W.Evaluates σ e o) (he : e.mayThrow = false) : o ≠ .thrown := by
  cases e with
  | var y | int n | null | neg y | instanceOf y ty =>
    rw [h]
    exact nofun
  | binary b =>
    change b.op.isDivision = false at he
    change W.Computes b.op (σ b.lhs) (σ b.rhs) o at h
    unfold Computes at h
    split at h
    · next m n _ _ =>
      rw [h, Value.run_eq, he]
      exact nofun
    · rw [h.resolve_left (by simp [he])]
      exact nofun
  | cast ty y | new ty | field b f | element b i | length y => cases he

/-! ### What a statement depends on -/

theorem Evaluates.congr (h : W.Evaluates σ e o) (hagree : ∀ v ∈ e.vars, σ v = τ v) :
    W.Evaluates τ e o := by
  cases e with
  | var y | neg y | instanceOf y ty =>
    have hy := hagree y List.mem_cons_self
    simp only [Evaluates] at h ⊢
    rw [← hy]
    exact h
  | binary b =>
    have hlhs := hagree b.lhs (by simp [Expr.vars])
    have hrhs := hagree b.rhs (by simp [Expr.vars])
    simp only [Evaluates] at h ⊢
    rw [← hlhs, ← hrhs]
    exact h
  | int n | null => exact h
  | cast ty y | new ty | field b f | element b i | length y => trivial

theorem Completes.congr (h : W.Completes σ s o) (hagree : ∀ v ∈ s.uses, σ v = τ v) :
    W.Completes τ s o := by
  cases s with
  | assign y e => exact ⟨h.1.congr hagree, h.2⟩
  | branch b t =>
    have hlhs := hagree b.lhs (by simp [Stmt.uses])
    have hrhs := hagree b.rhs (by simp [Stmt.uses])
    simp only [Completes] at h ⊢
    rw [← hlhs, ← hrhs]
    exact h
  | invoke result call => cases result <;> exact h
  | store l y | goto t | switch y cases d | ret y | nop => exact h

theorem Selects.congr (h : W.Selects σ s o flow) (hagree : ∀ v ∈ s.uses, σ v = τ v) :
    W.Selects τ s o flow := by
  cases s with
  | switch y cases d =>
    have hy := hagree y List.mem_cons_self
    simp only [Selects] at h ⊢
    rw [← hy]
    exact h
  | branch b t => exact h
  | assign y e | invoke result call | store l y | goto t | ret y | nop => trivial

theorem act_congr (hagree : ∀ v ∈ s.uses, σ v = τ v) : W.act σ s o = W.act τ s o := by
  unfold act
  rw [List.map_congr_left hagree]

/-- A statement does the same, and ends the run, in stores that agree on what it reads. -/
theorem dynamics_none_congr (h : W.dynamics s σ w none) (hagree : ∀ v ∈ s.uses, σ v = τ v) :
    W.dynamics s τ w none := by
  obtain ⟨o, hc, hw, ho⟩ := h
  refine ⟨o, hc.congr hagree, by rw [hw, act_congr hagree], ?_⟩
  rcases ho with ⟨ho, _⟩ | ⟨_, flow, _, hr⟩
  · exact .inl ⟨ho, rfl⟩
  · cases hr

/-- A statement does the same, and goes the same way, in stores that agree on what it reads; the new
stores agree on what it defines, and where the old ones did. -/
theorem dynamics_some_congr (h : W.dynamics s σ w (some (flow, σ')))
    (hagree : ∀ v ∈ s.uses, σ v = τ v) :
    ∃ τ', W.dynamics s τ w (some (flow, τ')) ∧
      ∀ v, s.def? = some v ∨ σ v = τ v → σ' v = τ' v := by
  obtain ⟨o, hc, hw, ho⟩ := h
  rcases ho with ⟨_, hr⟩ | ⟨hne, flow', hselects, hr⟩
  · cases hr
  · cases hr
    refine ⟨W.after τ s o, ⟨o, hc.congr hagree, by rw [hw, act_congr hagree], .inr ⟨hne, flow,
      hselects.congr hagree, rfl⟩⟩, fun v hv => ?_⟩
    by_cases hdef : s.def? = some v
    · obtain ⟨d, rfl⟩ := hc.gave hdef hne
      unfold after
      simp [hdef]
    · rw [after_of_ne hdef, after_of_ne hdef]
      exact hv.resolve_left hdef

/-- An assignment that cannot throw is not observed, and changes its variable only. -/
theorem dynamics_assign (h : W.dynamics (.assign x e) σ w r) (he : e.mayThrow = false) :
    w = none ∧ ∃ flow σ', r = some (flow, σ') ∧ ∀ v, x ≠ v → σ' v = σ v := by
  obtain ⟨o, hc, hw, ho⟩ := h
  refine ⟨hw.trans (if_neg (by simp [Stmt.observed, he])), ?_⟩
  rcases ho with ⟨ho, _⟩ | ⟨_, flow, _, hr⟩
  · exact absurd ho (hc.1.ne_thrown he)
  · refine ⟨flow, _, hr, fun v hv => after_of_ne ?_⟩
    simpa [Stmt.def?] using hv

theorem dynamics_nop (σ : W.Store) (flow : Flow) : W.dynamics .nop σ none (some (flow, σ)) :=
  ⟨.done, rfl, rfl, .inr ⟨nofun, flow, trivial, rfl⟩⟩

end World
end ProgramAnalysis
