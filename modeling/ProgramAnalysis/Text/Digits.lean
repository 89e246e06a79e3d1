/-!
Numbers written in digits.
-/
namespace ProgramAnalysis.Text

/-- What a decimal digit or a letter counts for in the base. -/
def digit? (base : Nat) (c : Char) : Option Nat :=
  let value :=
    if c.isDigit then some (c.toNat - 48)
    else if c.isLower then some (c.toNat - 87)
    else if c.isUpper then some (c.toNat - 55)
    else none
  value.filter (· < base)

/-- The number that a text of digits, and at least one of them, writes. -/
def nat? (base : Nat) (s : List Char) : Option Nat :=
  if s.isEmpty then none
  else s.foldlM (fun n c => (digit? base c).map fun d => n * base + d) 0

def hexDigit (n : Nat) : Char := Char.ofNat (if n < 10 then 48 + n else 55 + n)

/-- The last `width` hexadecimal digits. -/
def hexDigits : Nat → Nat → List Char
  | 0, _ => []
  | width + 1, n => hexDigits width (n / 16) ++ [hexDigit (n % 16)]

theorem digit?_hexDigit {n : Nat} (h : n < 16) : digit? 16 (hexDigit n) = some n := by
  have all : ∀ i : Fin 16, digit? 16 (hexDigit i.val) = some i.val := by decide
  exact all ⟨n, h⟩

theorem foldlM_hexDigits (width n start : Nat) (h : n < Nat.pow 16 width) :
    (hexDigits width n).foldlM (fun n c => (digit? 16 c).map fun d => n * 16 + d) start =
      some (start * Nat.pow 16 width + n) := by
  induction width generalizing n with
  | zero =>
    have hn : n = 0 := Nat.lt_one_iff.mp h
    simp [hexDigits, hn, Nat.pow]
  | succ width ih =>
    have hq : n / 16 < Nat.pow 16 width := by
      refine Nat.div_lt_of_lt_mul ?_
      rw [Nat.mul_comm]
      exact h
    have hpow : Nat.pow 16 (width + 1) = Nat.pow 16 width * 16 := rfl
    have hn := Nat.div_add_mod n 16
    rw [hexDigits, List.foldlM_append, ih _ hq, hpow]
    simp only [List.foldlM_cons, List.foldlM_nil, Option.bind_eq_bind, Option.bind_some,
      digit?_hexDigit (Nat.mod_lt n (by decide : 0 < 16)), Option.map_some, Option.pure_def,
      Option.some.injEq, Nat.add_mul, Nat.mul_assoc]
    omega

end ProgramAnalysis.Text
