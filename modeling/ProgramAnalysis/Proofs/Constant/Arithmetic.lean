import Mathlib.Data.Int.Bitwise
import ProgramAnalysis.Proofs.Execution.Arithmetic

/-! Operators on known constants: what each computes, over the integers. Results come back into 32
bits by the balanced remainder, which lies between `-2 ^ 31` and `2 ^ 31`. -/
namespace ProgramAnalysis

namespace Value

/-- A negative integer has the sign bit in all higher places. -/
theorem testBit_toInt {w : Nat} (x : BitVec w) (i : Nat) :
    x.toInt.testBit i = if i < w then x.getLsbD i else x.msb := by
  rw [BitVec.toInt_eq_msb_cond]
  by_cases hmsb : x.msb = true
  · have hlt := x.isLt
    have hneg : (x.toNat : Int) - (2 ^ w : Nat) = .negSucc (~~~x).toNat := by
      rw [BitVec.toNat_not, Int.negSucc_eq]
      omega
    rw [if_pos hmsb, hneg]
    show (!(~~~x).toNat.testBit i) = _
    rw [BitVec.testBit_toNat, BitVec.getLsbD_not]
    by_cases hi : i < w <;> simp [hi, hmsb]
  · rw [if_neg hmsb]
    show x.toNat.testBit i = _
    rw [BitVec.testBit_toNat]
    by_cases hi : i < w
    · rw [if_pos hi]
    · rw [if_neg hi, BitVec.getLsbD_of_ge x i (Nat.le_of_not_lt hi)]
      exact (Bool.eq_false_iff.mpr hmsb).symm

variable {op : BinOp} {a b c : Int32} {x : Int}

/-- The operator takes `a` and `b` to the constant that stands for `x`. -/
def Computes (op : BinOp) (a b : Int32) (x : Int) : Prop :=
  ∃ c : Int32, evalBinary op (.constant a) (.constant b) = .constant c ∧ c.toInt = x

/-- The operator works on each place of the two's complements alone. -/
def Bitwise (op : BinOp) (f : Bool → Bool → Bool) (a b : Int32) : Prop :=
  ∃ c : Int32, evalBinary op (.constant a) (.constant b) = .constant c ∧
    ∀ i, c.toInt.testBit i = f (a.toInt.testBit i) (b.toInt.testBit i)

/-- How far a shift goes. -/
def distance (b : Int32) : Nat := (b.toInt % 32).toNat

theorem evalBinary_of_run (h : op.run a b = some c) :
    evalBinary op (.constant a) (.constant b) = .constant c := by
  rw [run_eq] at h
  split at h
  · cases h
  · next hop =>
    have hzero : (op.isDivision && Value.constant b == .constant 0) = false := by
      simpa using hop
    unfold evalBinary
    rw [hzero]
    exact congrArg Value.constant (Option.some.inj h)

theorem computes_of_exact (h : op.exact a.toInt b.toInt = some x) :
    Computes op a b (x.bmod (2 ^ 32)) :=
  ⟨Int32.ofInt x, evalBinary_of_run (by rw [BinOp.run, h, Option.map_some]), Int32.toInt_ofInt⟩

/-- Where the exact result fits, it is the result. -/
theorem computes_of_fits (h : op.exact a.toInt b.toInt = some x) (hx : -2 ^ 31 ≤ x ∧ x < 2 ^ 31) :
    Computes op a b x := by
  have hfits : x.bmod (2 ^ 32) = x := Int.bmod_eq_of_le (by omega) (by omega)
  have hc := computes_of_exact h
  rwa [hfits] at hc

/-! ### Failure -/

theorem compute?_eq (op : BinOp) (a b : Int32) :
    compute? op a b = if op.isDivision ∧ b = 0 then none else some (apply op a b) := by
  cases op <;> simp [compute?, BinOp.isDivision]

/-- The test of the divisor comes first, so that the arithmetic after it does not fail. -/
theorem evalBinary?_eq (op : BinOp) (x y : Value) :
    evalBinary? op x y = some (evalBinary op x y) := by
  unfold evalBinary? evalBinary
  split
  · rfl
  · next hguard =>
    cases x with
    | nac => rfl
    | undef => cases y <;> rfl
    | constant m =>
      cases y with
      | nac | undef => rfl
      | constant n =>
        have hdivides : ¬ (op.isDivision ∧ n = 0) := by simpa using hguard
        simp only [compute?_eq, if_neg hdivides, Option.map_some]

/-! ### Quotients and remainders -/

/-- Division fails by zero only, and then has no value. -/
theorem evalBinary_division (hop : op.isDivision) (hb : b = 0) :
    evalBinary op (.constant a) (.constant b) = .undef := by
  subst hb
  unfold evalBinary
  rw [hop]
  rfl

theorem toInt_ne_zero (hb : b ≠ 0) : b.toInt ≠ 0 := by
  rw [← Int32.toInt_zero]
  exact mt Int32.toInt_inj.mp hb

theorem computes_div (hb : b ≠ 0) : Computes .div a b ((a.toInt.tdiv b.toInt).bmod (2 ^ 32)) :=
  computes_of_exact (if_neg (toInt_ne_zero hb))

/-- A remainder fits: it lies between zero and the dividend. -/
theorem computes_rem (hb : b ≠ 0) : Computes .rem a b (a.toInt.tmod b.toInt) := by
  refine computes_of_fits (if_neg (toInt_ne_zero hb)) ?_
  rw [← Int32.toInt_mod]
  exact ⟨Int32.le_toInt _, Int32.toInt_lt _⟩

/-- Quotient and remainder make up the dividend, also where the quotient wraps. -/
theorem div_mul_add_rem (hb : b ≠ 0) :
    evalBinary .add (evalBinary .mul (evalBinary .div (.constant a) (.constant b)) (.constant b))
      (evalBinary .rem (.constant a) (.constant b)) = .constant a := by
  obtain ⟨q, hq, hquotient⟩ := computes_div (a := a) hb
  obtain ⟨r, hr, hremainder⟩ := computes_rem (a := a) hb
  obtain ⟨p, hp, hproduct⟩ : Computes .mul q b _ := computes_of_exact rfl
  obtain ⟨s, hs, hsum⟩ : Computes .add p r _ := computes_of_exact rfl
  rw [hq, hp, hr, hs]
  refine congrArg Value.constant (Int32.toInt.inj ?_)
  rw [hsum, hproduct, hquotient, hremainder, Int.bmod_mul_bmod, Int.bmod_add_bmod,
    Int.tdiv_mul_add_tmod]
  exact Int.bmod_eq_of_le (Int32.le_toInt a) (Int32.toInt_lt a)

theorem computes_truth {p : Prop} [Decidable p]
    (h : op.exact a.toInt b.toInt = some (BinOp.truth (decide p))) :
    Computes op a b (if p then 1 else 0) := by
  have htruth : BinOp.truth (decide p) = if p then 1 else 0 := by simp [BinOp.truth]
  rw [← htruth]
  refine computes_of_fits h ?_
  cases decide p <;> decide

/-! ### Shifts -/

theorem fdiv_distance (x : Int) : x.fdiv (2 ^ distance b) = x / 2 ^ distance b :=
  Int.fdiv_eq_ediv_of_nonneg x (Int.le_of_lt (Int.pow_pos (by decide)))

theorem computes_shr : Computes .shr a b (a.toInt.fdiv (2 ^ distance b)) := by
  rw [fdiv_distance, ← bmod_ediv_pow]
  exact computes_of_exact rfl

theorem computes_ushr :
    Computes .ushr a b (((a.toInt % 2 ^ 32).fdiv (2 ^ distance b)).bmod (2 ^ 32)) := by
  rw [fdiv_distance]
  exact computes_of_exact rfl

/-! ### Bits -/

theorem bitwise_of_run {f : Bool → Bool → Bool} (h : op.run a b = some c)
    (hplace : ∀ i < 32, c.toBitVec.getLsbD i = f (a.toBitVec.getLsbD i) (b.toBitVec.getLsbD i))
    (hsign : c.toBitVec.msb = f a.toBitVec.msb b.toBitVec.msb) : Bitwise op f a b := by
  refine ⟨c, evalBinary_of_run h, fun i => ?_⟩
  simp only [← Int32.toInt_toBitVec, testBit_toInt]
  by_cases hi : i < 32
  · simp only [if_pos hi, hplace i hi]
  · simp only [if_neg hi, hsign]

theorem bitwise_and : Bitwise .and (· && ·) a b :=
  bitwise_of_run (run_eq _ _ _) (fun i _ => by simp [apply]) (by simp [apply])

theorem bitwise_or : Bitwise .or (· || ·) a b :=
  bitwise_of_run (run_eq _ _ _) (fun i _ => by simp [apply]) (by simp [apply])

theorem bitwise_xor : Bitwise .xor (· ^^ ·) a b :=
  bitwise_of_run (run_eq _ _ _) (fun i _ => by simp [apply]) (by simp [apply])

/-! ### All operators -/

/-- No operator fails, whatever its operands are, and this is what each gives for two constants. -/
theorem evalBinary_exact (a b : Int32) :
    (∀ op x y, evalBinary? op x y = some (evalBinary op x y)) ∧
    Computes .add a b ((a.toInt + b.toInt).bmod (2 ^ 32)) ∧
    Computes .sub a b ((a.toInt - b.toInt).bmod (2 ^ 32)) ∧
    Computes .mul a b ((a.toInt * b.toInt).bmod (2 ^ 32)) ∧
    (if b = 0 then
      evalBinary .div (.constant a) (.constant b) = .undef ∧
        evalBinary .rem (.constant a) (.constant b) = .undef
    else
      Computes .div a b ((a.toInt.tdiv b.toInt).bmod (2 ^ 32)) ∧
        Computes .rem a b (a.toInt.tmod b.toInt) ∧
        evalBinary .add
          (evalBinary .mul (evalBinary .div (.constant a) (.constant b)) (.constant b))
          (evalBinary .rem (.constant a) (.constant b)) = .constant a) ∧
    Computes .div Int32.minValue (-1) (-2 ^ 31) ∧ Computes .rem Int32.minValue (-1) 0 ∧
    Computes .shl a b ((a.toInt * 2 ^ distance b).bmod (2 ^ 32)) ∧
    Computes .shr a b (a.toInt.fdiv (2 ^ distance b)) ∧
    Computes .ushr a b (((a.toInt % 2 ^ 32).fdiv (2 ^ distance b)).bmod (2 ^ 32)) ∧
    Bitwise .and (· && ·) a b ∧ Bitwise .or (· || ·) a b ∧ Bitwise .xor (· ^^ ·) a b ∧
    Computes .eq a b (if a.toInt = b.toInt then 1 else 0) ∧
    Computes .ne a b (if a.toInt ≠ b.toInt then 1 else 0) ∧
    Computes .lt a b (if a.toInt < b.toInt then 1 else 0) ∧
    Computes .gt a b (if b.toInt < a.toInt then 1 else 0) ∧
    Computes .le a b (if a.toInt ≤ b.toInt then 1 else 0) ∧
    Computes .ge a b (if b.toInt ≤ a.toInt then 1 else 0) := by
  refine ⟨evalBinary?_eq, computes_of_exact rfl, computes_of_exact rfl, computes_of_exact rfl,
    ?_, ?_, ?_, computes_of_exact rfl, computes_shr, computes_ushr, bitwise_and, bitwise_or, bitwise_xor,
    computes_truth rfl, computes_truth rfl, computes_truth rfl, computes_truth rfl,
    computes_truth rfl, computes_truth rfl⟩
  · split
    · next hb => exact ⟨evalBinary_division rfl hb, evalBinary_division rfl hb⟩
    · next hb => exact ⟨computes_div hb, computes_rem hb, div_mul_add_rem hb⟩
  · exact computes_div (by decide)
  · exact computes_rem (by decide)

end Value
end ProgramAnalysis
