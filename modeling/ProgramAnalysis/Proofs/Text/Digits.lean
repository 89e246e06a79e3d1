import ProgramAnalysis.Text.Digits

/-! Decimal numbers as they are written: digits only, none of them a zero in front, and read again
they give the number. -/
namespace ProgramAnalysis.Text

theorem digit?_of_isDigit {c : Char} (h : c.isDigit) : digit? 10 c = some (c.toNat - 48) := by
  have hhigh : c.toNat ≤ 57 := UInt32.le_iff_toNat_le.mp (of_decide_eq_true
    (Bool.and_eq_true_iff.mp h).2)
  have hlt : c.toNat - 48 < 10 := by omega
  simp [digit?, h, hlt]

theorem foldlM_digits {s : List Char} (h : ∀ c ∈ s, c.isDigit) (start : Nat) :
    s.foldlM (fun n c => (digit? 10 c).map fun d => n * 10 + d) start =
      some (Nat.ofDigitChars 10 s start) := by
  induction s generalizing start with
  | nil => rfl
  | cons c s ih =>
    rw [List.foldlM_cons, digit?_of_isDigit (h c List.mem_cons_self), Nat.ofDigitChars_cons,
      Nat.mul_comm 10 start]
    exact ih (fun d hd => h d (List.mem_cons_of_mem c hd)) _

theorem toList_toString (n : Nat) : (toString n).toList = Nat.toDigits 10 n := Nat.toList_repr

theorem isDigit_of_mem_toDigits {n : Nat} {c : Char} (h : c ∈ Nat.toDigits 10 n) : c.isDigit :=
  Nat.isDigit_of_mem_toDigits (by decide) (by decide) h

theorem nat?_toDigits (n : Nat) : nat? 10 (Nat.toDigits 10 n) = some n := by
  have hne : (Nat.toDigits 10 n).isEmpty = false :=
    List.isEmpty_eq_false_iff.mpr Nat.toDigits_ne_nil
  rw [nat?, hne, if_neg Bool.false_ne_true, foldlM_digits fun _ => isDigit_of_mem_toDigits,
    Nat.ofDigitChars_ten_toDigits]

theorem eq_zero_of_toDigits {n : Nat} {ds : List Char} (h : Nat.toDigits 10 n = '0' :: ds) :
    n = 0 := by
  induction n using Nat.strongRecOn generalizing ds with
  | ind n ih =>
    by_cases hn : n < 10
    · rw [Nat.toDigits_of_lt_base hn, List.cons.injEq, Nat.digitChar_eq_zero] at h
      exact h.1
    · obtain ⟨c, cs, hcs⟩ := List.exists_cons_of_ne_nil
        (Nat.toDigits_ne_nil : Nat.toDigits 10 (n / 10) ≠ [])
      rw [Nat.toDigits_of_base_le (by decide) (by omega), hcs, List.cons_append,
        List.cons.injEq] at h
      have hzero := ih (n / 10) (by omega) (h.1 ▸ hcs)
      omega

/-- Only zero itself starts with a zero. -/
theorem toDigits_unpadded (n : Nat) (d : Char) (ds : List Char) :
    Nat.toDigits 10 n ≠ '0' :: d :: ds := by
  intro h
  obtain rfl := eq_zero_of_toDigits h
  rw [Nat.toDigits_zero] at h
  cases h

end ProgramAnalysis.Text
