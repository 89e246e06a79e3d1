import Mathlib.Order.Basic
import ProgramAnalysis.Proofs.Constant.Equations

/-! Where constant propagation within a method is monotone. An operator is, in both operands, but for
one case of division and remainder: `nac` divided by `undef` is `nac`, and comes down to `undef` when
the divisor turns out to be zero. So a larger fact leaves a larger fact behind a statement, but for
the variable that is assigned such a quotient. -/
namespace ProgramAnalysis

namespace Value

variable {x x' y y' : Value} {op : BinOp}

/-- `undef` lies below every constant, and every constant below `nac`. -/
instance : PartialOrder Value where
  le x y := x = .undef ∨ x = y ∨ y = .nac
  le_refl _ := .inr (.inl rfl)
  le_trans x y z hxy hyz := by
    rcases hxy with hx | rfl | rfl
    · exact .inl hx
    · exact hyz
    · rcases hyz with h | h | h
      · cases h
      · exact .inr (.inr h.symm)
      · exact .inr (.inr h)
  le_antisymm x y hxy hyx := by
    rcases hxy with rfl | rfl | rfl
    · rcases hyx with h | h | h
      · exact h.symm
      · exact h.symm
      · cases h
    · rfl
    · rcases hyx with h | h | h
      · cases h
      · exact h.symm
      · exact h

theorem le_iff_meet : x ≤ y ↔ x.meet y = y := meet_eq_right_iff.symm

theorem undef_le (x : Value) : undef ≤ x := .inl rfl

theorem not_nac_le_undef : ¬ nac ≤ undef := by
  rintro (h | h | h) <;> cases h

/-- `nac` is divided, by a divisor that has no value yet and then is zero. -/
structure Drops (op : BinOp) (x y y' : Value) : Prop where
  division : op.isDivision
  dividend : x = .nac
  divisor : y = .undef
  zero : y' = .constant 0

theorem evalBinary_zero (hop : op.isDivision) (x : Value) :
    evalBinary op x (.constant 0) = .undef := by
  unfold evalBinary
  rw [hop]
  rfl

theorem Drops.before (h : Drops op x y y') : evalBinary op x y = .nac := by
  obtain ⟨-, rfl, rfl, -⟩ := h
  exact evalBinary_eq_lift (Bool.and_false _)

theorem Drops.after (h : Drops op x y y') (x' : Value) : evalBinary op x' y' = .undef :=
  h.zero ▸ evalBinary_zero h.division x'

/-- A divisor that is zero was zero before, or it had no value. -/
theorem evalBinary_le_of_zero (hop : op.isDivision) (hy : y ≤ .constant 0)
    (hdrops : ¬ Drops op x y (.constant 0)) : evalBinary op x y = .undef := by
  rcases hy with rfl | rfl | hy
  · have hx : x ≠ .nac := fun hx => hdrops ⟨hop, hx, rfl, rfl⟩
    rw [evalBinary_eq_lift (Bool.and_false _)]
    cases x with
    | nac => exact absurd rfl hx
    | undef | constant m => rfl
  · exact evalBinary_zero hop x
  · cases hy

theorem evalBinary_le (hx : x ≤ x') (hy : y ≤ y') (hdrops : ¬ Drops op x y y') :
    evalBinary op x y ≤ evalBinary op x' y' := by
  by_cases hop : op.isDivision
  · by_cases hzero' : y' = .constant 0
    · subst hzero'
      rw [evalBinary_le_of_zero hop hy hdrops]
      exact undef_le _
    · by_cases hzero : y = .constant 0
      · rw [hzero, evalBinary_zero hop]
        exact undef_le _
      · rw [evalBinary_eq_lift (by simp [hzero]), evalBinary_eq_lift (by simp [hzero'])]
        exact le_iff_meet.mpr (lift_mono (le_iff_meet.mp hx) (le_iff_meet.mp hy))
  · have hop : op.isDivision = false := Bool.eq_false_iff.mpr hop
    exact le_iff_meet.mpr (evalBinary_mono hop (le_iff_meet.mp hx) (le_iff_meet.mp hy))

theorem evalBinary_le_iff (hx : x ≤ x') (hy : y ≤ y') :
    evalBinary op x y ≤ evalBinary op x' y' ↔ ¬ Drops op x y y' := by
  refine ⟨fun hle hdrops => ?_, evalBinary_le hx hy⟩
  rw [hdrops.before, hdrops.after] at hle
  exact not_nac_le_undef hle

end Value

theorem Fact.le_set {f : Fact} {v : VarId} {x : Value} (h : f.get v ≤ x) (w : VarId) :
    f.get w ≤ (f.set v x).get w := by
  rw [get_set]
  split
  · next heq => exact heq ▸ h
  · exact le_rfl

namespace Constant

variable {p : Program} {f g : Fact} {s : Stmt} {v : VarId}

/-- The statement assigns to `v` a quotient or a remainder that drops from `f` to `g`. -/
def DropsAt (p : Program) (s : Stmt) (f g : Fact) (v : VarId) : Prop :=
  ∃ c, s = .assign v (.binary c) ∧ p.holdsInt v ∧
    Value.Drops c.op (f.get c.lhs) (f.get c.rhs) (g.get c.rhs)

theorem evaluate_le {e : Expr} (h : ∀ v, f.get v ≤ g.get v)
    (hdrops : ∀ c, e = .binary c → ¬ Value.Drops c.op (f.get c.lhs) (f.get c.rhs) (g.get c.rhs)) :
    evaluate e f ≤ evaluate e g := by
  cases e with
  | var v => exact h v
  | binary c => exact Value.evalBinary_le (h c.lhs) (h c.rhs) (hdrops c rfl)
  | int n => exact le_rfl
  | null | neg v | cast ty v | instanceOf v ty | new ty | field base f | element base i
  | length v => exact le_rfl

theorem transferStmt_le (h : ∀ v, f.get v ≤ g.get v) (hdrops : ¬ DropsAt p s f g v) :
    (transferStmt p s f).get v ≤ (transferStmt p s g).get v := by
  cases s with
  | assign x e =>
    simp only [transferStmt]
    split
    · next hx =>
      rw [Fact.get_set, Fact.get_set]
      split
      · next heq =>
        subst heq
        exact evaluate_le h fun c he hd => hdrops ⟨c, he ▸ rfl, hx, hd⟩
      · exact h v
    · exact h v
  | invoke result call =>
    cases result with
    | none => exact h v
    | some x =>
      simp only [transferStmt]
      split
      · rw [Fact.get_set, Fact.get_set]
        split
        · exact le_rfl
        · exact h v
      · exact h v
  | store l v | branch c t | goto t | switch v cases d | ret v | nop => exact h _

theorem DropsAt.transferStmt (hdrops : DropsAt p s f g v) :
    (transferStmt p s f).get v = .nac ∧ (transferStmt p s g).get v = .undef := by
  obtain ⟨c, rfl, hv, hc⟩ := hdrops
  have hset : ∀ f : Fact, (Constant.transferStmt p (.assign v (.binary c)) f).get v =
      Value.evalBinary c.op (f.get c.lhs) (f.get c.rhs) := by
    intro f
    simp only [Constant.transferStmt, if_pos hv]
    rw [Fact.get_set, if_pos rfl]
    rfl
  exact ⟨(hset f).trans hc.before, (hset g).trans (hc.after _)⟩

/-- A larger fact leaves a larger fact behind every statement, at every variable but one that is
assigned a quotient or a remainder of `nac` whose divisor rises from `undef` to zero: there `nac`
comes down to `undef`. An operator is monotone in both operands, but for that same case. -/
theorem transferStmt_le_iff (h : ∀ v, f.get v ≤ g.get v) :
    (∀ s v, ((transferStmt p s f).get v ≤ (transferStmt p s g).get v ↔ ¬ DropsAt p s f g v) ∧
      (DropsAt p s f g v →
        (transferStmt p s f).get v = .nac ∧ (transferStmt p s g).get v = .undef)) ∧
    ∀ op x x' y y', x ≤ x' → y ≤ y' →
      (Value.evalBinary op x y ≤ Value.evalBinary op x' y' ↔ ¬ Value.Drops op x y y') := by
  refine ⟨fun s v => ⟨⟨fun hle hdrops => ?_, transferStmt_le h⟩, DropsAt.transferStmt⟩,
    fun op x x' y y' => Value.evalBinary_le_iff⟩
  rw [hdrops.transferStmt.1, hdrops.transferStmt.2] at hle
  exact Value.not_nac_le_undef hle

/-- The dividend `p` of `quotients` is a parameter; nothing is known of the divisor `y`. -/
def divisorUnknown : Fact := .ofList [(⟨0⟩, .nac)]

def divisorZero : Fact := divisorUnknown.set ⟨2⟩ (.constant 0)

theorem divisorUnknown_le (v : VarId) : divisorUnknown.get v ≤ divisorZero.get v :=
  Fact.le_set (Value.undef_le _) v

/-- Of the statements of `quotients` only `x = p / y` is not monotone, and only at `x`. -/
theorem transferStmt_le_iff_quotients :
    (∀ v, divisorUnknown.get v ≤ divisorZero.get v) ∧ ∀ i s, quotients.stmt? i = some s → ∀ v,
      ((transferStmt quotientsBuilder.program s divisorUnknown).get v ≤
        (transferStmt quotientsBuilder.program s divisorZero).get v ↔ ¬ (i = 0 ∧ v = ⟨1⟩)) := by
  refine ⟨divisorUnknown_le, fun i s hs v => ?_⟩
  rw [((transferStmt_le_iff divisorUnknown_le).1 s v).1, not_iff_not]
  constructor
  · rintro ⟨c, rfl, -, hc⟩
    obtain _ | _ | _ | i := i <;> cases hs
    exact ⟨rfl, rfl⟩
  · rintro ⟨rfl, rfl⟩
    cases hs
    exact ⟨_, rfl, rfl, rfl, rfl, rfl, rfl⟩

/-- `x = p / y` is not monotone: with `p` unknown, `x` is `nac` as long as `y` has no value, and
without a value once `y` is zero. -/
theorem transferStmt_not_monotone : quotientsBuilder.program.Accepted ∧
    quotients.stmt? 0 = some (.assign ⟨1⟩ (.binary ⟨.div, ⟨0⟩, ⟨2⟩⟩)) ∧
    (∀ v, divisorUnknown.get v ≤ divisorZero.get v) ∧
    ¬ (transferStmt quotientsBuilder.program (.assign ⟨1⟩ (.binary ⟨.div, ⟨0⟩, ⟨2⟩⟩))
        divisorUnknown).get ⟨1⟩ ≤
      (transferStmt quotientsBuilder.program (.assign ⟨1⟩ (.binary ⟨.div, ⟨0⟩, ⟨2⟩⟩))
        divisorZero).get ⟨1⟩ ∧
    Value.undef ≤ .constant 0 ∧
    ¬ Value.evalBinary .div .nac .undef ≤ Value.evalBinary .div .nac (.constant 0) :=
  ⟨accepted_quotients, rfl, divisorUnknown_le, Value.not_nac_le_undef, Value.undef_le _,
    Value.not_nac_le_undef⟩

end Constant
end ProgramAnalysis
