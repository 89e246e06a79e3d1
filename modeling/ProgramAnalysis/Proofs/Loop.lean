import Mathlib.Order.Basic

/-! Loops without a bound: rounds follow one another until one leaves with a result. -/
namespace ProgramAnalysis

variable {σ α : Type} {round : σ → σ ⊕ α}

/-- The loop comes to an end from `s`, with the result `a`. -/
inductive Ends (round : σ → σ ⊕ α) : σ → α → Prop
  | leave {s a} : round s = .inr a → Ends round s a
  | again {s t a} : round s = .inl t → Ends round t a → Ends round s a

/-- A loop with fuel ends as the loop without a bound does, if each round lowers a measure that the fuel
exceeds. -/
theorem Ends.of_fuel (run : Nat → σ → α) (Inv : σ → Prop) (μ : σ → Nat)
    (hrun : ∀ fuel s, run (fuel + 1) s = (round s).elim (run fuel) id)
    (hround : ∀ {s t}, Inv s → round s = .inl t → Inv t ∧ μ t < μ s) {fuel : Nat} {s : σ}
    (hs : Inv s) (hfuel : μ s < fuel) : Ends round s (run fuel s) := by
  induction fuel generalizing s with
  | zero => exact absurd hfuel (Nat.not_lt_zero _)
  | succ fuel ih =>
    rw [hrun]
    cases hcase : round s with
    | inr a => exact .leave hcase
    | inl t =>
      obtain ⟨ht, hlt⟩ := hround hs hcase
      exact .again hcase (ih ht (by omega))

end ProgramAnalysis
