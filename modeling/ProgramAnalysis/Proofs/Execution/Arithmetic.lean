import Mathlib.Algebra.Ring.Int.Defs
import Mathlib.Algebra.Ring.Nat
import ProgramAnalysis.Constant.Value

/-! Concrete arithmetic: the result over the integers, taken into 32 bits, and none for a division
by zero. The arithmetic of constants computes the same. -/
namespace ProgramAnalysis

namespace BinOp

def truth (b : Bool) : Int := if b then 1 else 0

/-- The result over the integers. Bits are those of the two's complement, and shifts use the low
five bits of the distance. -/
def exact (op : BinOp) (a b : Int) : Option Int :=
  match op with
  | .add => some (a + b)
  | .sub => some (a - b)
  | .mul => some (a * b)
  | .div => if b = 0 then none else some (a.tdiv b)
  | .rem => if b = 0 then none else some (a.tmod b)
  | .eq => some (truth (a = b))
  | .ne => some (truth (a ≠ b))
  | .lt => some (truth (a < b))
  | .gt => some (truth (b < a))
  | .le => some (truth (a ≤ b))
  | .ge => some (truth (b ≤ a))
  | .shl => some (a * 2 ^ (b % 32).toNat)
  | .shr => some (a / 2 ^ (b % 32).toNat)
  | .ushr => some (a % 2 ^ 32 / 2 ^ (b % 32).toNat)
  | .and => some (BitVec.ofInt 32 a &&& BitVec.ofInt 32 b).toInt
  | .or => some (BitVec.ofInt 32 a ||| BitVec.ofInt 32 b).toInt
  | .xor => some (BitVec.ofInt 32 a ^^^ BitVec.ofInt 32 b).toInt

/-- The exact result in 32 bits. -/
def run (op : BinOp) (m n : Int32) : Option Int32 := (op.exact m.toInt n.toInt).map Int32.ofInt

end BinOp

namespace Value

/-! ### Shifts -/

theorem smod_eq (n : Int32) : (n.toBitVec.smod 32).toNat = (n.toInt % 32).toNat := by
  have hmod : (n.toBitVec.smod 32).toInt = n.toInt % 32 := by
    rw [BitVec.toInt_smod, Int32.toInt_toBitVec]
    exact Int.fmod_eq_emod_of_nonneg _ (by decide)
  have hlt : n.toInt % 32 < 32 := Int.emod_lt_of_pos _ (by decide)
  have hle : 0 ≤ n.toInt % 32 := Int.emod_nonneg _ (by decide)
  rw [BitVec.toInt_eq_toNat_cond] at hmod
  split at hmod <;> omega

theorem toNat_eq (m : Int32) : (m.toBitVec.toNat : Int) = m.toInt % 2 ^ 32 := by
  rw [← Int32.toInt_toBitVec, BitVec.toInt_eq_toNat_cond]
  have := m.toBitVec.isLt
  split <;> omega

theorem shl_eq (m n : Int32) : m <<< n = Int32.ofInt (m.toInt * 2 ^ (n.toInt % 32).toNat) := by
  apply Int32.toInt.inj
  have hsize : Int32.size = 2 ^ 32 := rfl
  have hm : m.toInt = (m.toBitVec.toNat : Int).bmod (2 ^ 32) := BitVec.toInt_eq_toNat_bmod _
  show (m.toBitVec <<< (n.toBitVec.smod 32)).toInt = _
  rw [BitVec.shiftLeft_eq', smod_eq, BitVec.toInt_shiftLeft, Int32.toInt_ofInt, Nat.shiftLeft_eq,
    hm, hsize, Int.bmod_mul_bmod, Int.natCast_mul, Int.natCast_pow]
  rfl

/-- Divided by a power of two, an integer of 32 bits stays one. -/
theorem bmod_ediv_pow (m : Int32) (k : Nat) :
    (m.toInt / 2 ^ k).bmod (2 ^ 32) = m.toInt / 2 ^ k := by
  have hbound : (m.toInt >>> k).bmod (2 ^ 32) = m.toInt >>> k := by
    rw [← Int32.toInt_toBitVec, ← BitVec.toInt_sshiftRight, BitVec.toInt_bmod_cancel]
  rwa [Int.shiftRight_eq_div_pow] at hbound

theorem shr_eq (m n : Int32) : m >>> n = Int32.ofInt (m.toInt / 2 ^ (n.toInt % 32).toNat) := by
  apply Int32.toInt.inj
  show (BitVec.sshiftRight' m.toBitVec (n.toBitVec.smod 32)).toInt = _
  rw [BitVec.sshiftRight_eq', smod_eq, BitVec.toInt_sshiftRight, Int32.toInt_toBitVec,
    Int32.toInt_ofInt, Int.shiftRight_eq_div_pow]
  exact (bmod_ediv_pow m _).symm

theorem ushr_eq (m n : Int32) : (m.toUInt32 >>> n.toUInt32).toInt32 =
    Int32.ofInt (m.toInt % 2 ^ 32 / 2 ^ (n.toInt % 32).toNat) := by
  have hdistance : (n.toBitVec % 32).toNat = (n.toInt % 32).toNat := by
    have hn := toNat_eq n
    rw [BitVec.toNat_umod]
    show n.toBitVec.toNat % 32 = _
    omega
  have hcast : (m.toBitVec.toNat : Int) / 2 ^ (n.toInt % 32).toNat =
      ((m.toBitVec.toNat / 2 ^ (n.toInt % 32).toNat : Nat) : Int) := by
    rw [Int.natCast_ediv, Int.natCast_pow]
    rfl
  apply Int32.toBitVec.inj
  apply BitVec.eq_of_toNat_eq
  show (m.toBitVec >>> (n.toBitVec % 32)).toNat = _
  rw [BitVec.ushiftRight_eq', hdistance, Int32.toBitVec_ofInt, ← toNat_eq, hcast,
    BitVec.ofInt_natCast, BitVec.toNat_ofNat, BitVec.toNat_ushiftRight, Nat.shiftRight_eq_div_pow]
  exact (Nat.mod_eq_of_lt (Nat.lt_of_le_of_lt (Nat.div_le_self _ _) m.toBitVec.isLt)).symm

/-! ### All operations -/

theorem ofBool_eq (b : Bool) : ofBool b = Int32.ofInt (BinOp.truth b) := by
  cases b <;> rfl

theorem div_eq (m n : Int32) : m / n = Int32.ofInt (m.toInt.tdiv n.toInt) := by
  apply Int32.toInt.inj
  rw [Int32.toInt_div, Int32.toInt_ofInt]

theorem mod_eq (m n : Int32) : m % n = Int32.ofInt (m.toInt.tmod n.toInt) := by
  rw [← Int32.toInt_mod, Int32.ofInt_toInt]

/-- Constants are computed with as the program computes. -/
theorem run_eq (op : BinOp) (m n : Int32) :
    op.run m n = if op.isDivision ∧ n = 0 then none else some (apply op m n) := by
  have hzero : n.toInt = 0 ↔ n = 0 := by rw [← Int32.toInt_zero, Int32.toInt_inj]
  have heq : (m == n) = decide (m = n) := rfl
  have hdivision : ∀ x : Int, Option.map Int32.ofInt (if n.toInt = 0 then none else some x) =
      if n = 0 then none else some (Int32.ofInt x) := by
    intro x
    by_cases hn : n = 0
    · rw [if_pos (hzero.mpr hn), if_pos hn]
      rfl
    · rw [if_neg (mt hzero.mp hn), if_neg hn]
      rfl
  unfold BinOp.run
  cases op with
  | add | sub | mul => simp [BinOp.exact, BinOp.isDivision, apply]
  | div => simp [BinOp.exact, BinOp.isDivision, apply, hdivision, div_eq]
  | rem => simp [BinOp.exact, BinOp.isDivision, apply, hdivision, mod_eq]
  | eq | ne => simp [BinOp.exact, BinOp.isDivision, apply, ofBool_eq, Int32.toInt_inj, bne, heq]
  | lt | gt => simp [BinOp.exact, BinOp.isDivision, apply, ofBool_eq, Int32.lt_iff_toInt_lt]
  | le | ge => simp [BinOp.exact, BinOp.isDivision, apply, ofBool_eq, Int32.le_iff_toInt_le]
  | shl => simp [BinOp.exact, BinOp.isDivision, apply, shl_eq]
  | shr => simp [BinOp.exact, BinOp.isDivision, apply, shr_eq]
  | ushr => simp [BinOp.exact, BinOp.isDivision, apply, ushr_eq]
  | and | or | xor =>
    simp only [BinOp.exact, BinOp.isDivision, apply, Option.map_some, Int32.ofInt_bitVecToInt]
    simp [← Int32.toInt_toBitVec]

end Value
end ProgramAnalysis
