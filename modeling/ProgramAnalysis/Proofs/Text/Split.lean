import ProgramAnalysis.Text.Split

/-! Cutting text at the first occurrence of a separator: what follows a cut does not move it, and
an occurrence that ends in a character lies between two others of that character. Text without
blanks at its ends is its own trimmed form. -/
namespace ProgramAnalysis.Text

variable {sep s x y : List Char} {c : Char}

theorem dropLead?_append (h : sep.length ≤ s.length) (x : List Char) :
    dropLead? sep (s ++ x) = (dropLead? sep s).map (· ++ x) := by
  induction sep generalizing s with
  | nil => rfl
  | cons p ps ih =>
    cases s with
    | nil => simp at h
    | cons c cs =>
      rw [List.cons_append, dropLead?, dropLead?]
      split
      · exact ih (Nat.le_of_succ_le_succ h)
      · rfl

theorem length_le_of_cut? {b a : List Char} (h : cut? sep s = some (b, a)) :
    sep.length ≤ s.length := by
  rw [eq_append_of_cut? h]
  simp only [List.length_append]
  omega

theorem cut?_append {b a : List Char} (h : cut? sep s = some (b, a)) (x : List Char) :
    cut? sep (s ++ x) = some (b, a ++ x) := by
  have hlen := length_le_of_cut? h
  have hlead := dropLead?_append hlen x
  induction s generalizing b with
  | nil =>
    obtain rfl := List.length_eq_zero_iff.mp (Nat.le_zero.mp hlen)
    obtain ⟨rfl, rfl⟩ := by simpa [cut?, dropLead?] using h
    cases x <;> rfl
  | cons d s ih =>
    rw [List.cons_append] at hlead ⊢
    rw [cut?] at h ⊢
    cases hd : dropLead? sep (d :: s) with
    | some rest =>
      simp only [hd, Option.some.injEq, Prod.mk.injEq] at h
      simp [hlead, hd, h.1, h.2]
    | none =>
      simp only [hd, Option.map_eq_some_iff, Prod.exists, Prod.mk.injEq] at h
      obtain ⟨b', a', hcut, rfl, rfl⟩ := h
      have hlen' := length_le_of_cut? hcut
      simp [hlead, hd, ih hcut hlen' (dropLead?_append hlen' x)]

theorem cut?_eq_none_iff : cut? sep s = none ↔ ¬ sep <:+: s := by
  induction s with
  | nil =>
    cases sep with
    | nil => simp [cut?, dropLead?]
    | cons p ps => simp [cut?, dropLead?]
  | cons d s ih =>
    rw [cut?, List.infix_cons_iff]
    cases hd : dropLead? sep (d :: s) with
    | some rest =>
      have hlead : sep <+: d :: s := ⟨rest, (dropLead?_eq_some_iff.mp hd).symm⟩
      simp [hlead]
    | none =>
      have hlead : ¬ sep <+: d :: s := by
        rintro ⟨rest, hrest⟩
        rw [dropLead?_eq_some_iff.mpr hrest.symm] at hd
        cases hd
      simp [hlead, ih]

/-- The cut is at the first occurrence, so that the rest holds what follows any. -/
theorem suffix_of_cut? {b a : List Char} (h : cut? sep (x ++ sep ++ y) = some (b, a)) :
    y <:+ a := by
  induction x generalizing b with
  | nil =>
    cases hs : sep ++ y with
    | nil =>
      obtain ⟨rfl, rfl⟩ := List.append_eq_nil_iff.mp hs
      exact List.nil_suffix
    | cons d s =>
      rw [List.nil_append, hs, cut?, dropLead?_eq_some_iff.mpr hs.symm] at h
      obtain ⟨_, rfl⟩ := by simpa using h
      exact List.suffix_refl _
  | cons d x ih =>
    rw [List.cons_append, List.cons_append, cut?] at h
    split at h
    · next rest hd =>
      obtain ⟨_, rfl⟩ := by simpa using h
      have hrest := dropLead?_eq_some_iff.mp hd
      have hlen := congrArg List.length hrest
      simp only [List.length_cons, List.length_append] at hlen
      have hy : y <:+ sep ++ rest := ⟨d :: (x ++ sep), by simpa using hrest⟩
      exact List.suffix_of_suffix_length_le hy (List.suffix_append _ _) (by omega)
    · simp only [Option.map_eq_some_iff, Prod.exists, Prod.mk.injEq] at h
      obtain ⟨b', a', hcut, _, rfl⟩ := h
      exact ih hcut

/-- The cut is at a separator if no occurrence begins in front of it. -/
theorem cut?_of_not_infix (h : ¬ sep <:+: x ++ sep.dropLast) (y : List Char) :
    cut? sep (x ++ sep ++ y) = some (x, y) := by
  induction x with
  | nil =>
    cases hs : sep with
    | nil => exact absurd List.nil_infix (hs ▸ h)
    | cons d ds =>
      have hlead : dropLead? (d :: ds) (d :: (ds ++ y)) = some y := dropLead?_eq_some_iff.mpr rfl
      simp [cut?, hlead]
  | cons d x ih =>
    have hrest : ¬ sep <:+: x ++ sep.dropLast := fun hx => h (hx.trans (List.suffix_cons d _).isInfix)
    have hlead : dropLead? sep (d :: x ++ sep ++ y) = none := by
      cases hd : dropLead? sep (d :: x ++ sep ++ y) with
      | none => rfl
      | some rest =>
        have hsep : sep <+: d :: x ++ sep ++ y := ⟨rest, (dropLead?_eq_some_iff.mp hd).symm⟩
        have hx : d :: x ++ sep.dropLast <+: d :: x ++ sep ++ y := by
          rw [List.append_assoc]
          have hlast := (List.dropLast_prefix sep).trans (List.prefix_append sep y)
          exact (List.prefix_append_right_inj _).mpr hlast
        have hle : sep.length ≤ (d :: x ++ sep.dropLast).length := by
          simp only [List.length_append, List.length_cons, List.length_dropLast]
          omega
        exact absurd (List.prefix_of_prefix_length_le hsep hx hle).isInfix h
    simp only [List.cons_append, List.append_assoc] at hlead ih ⊢
    rw [cut?, hlead, ih hrest]
    rfl

theorem cut?_singleton (h : c ∉ x) (y : List Char) : cut? [c] (x ++ c :: y) = some (x, y) := by
  have hfree : ¬ [c] <:+: x ++ [c].dropLast := fun hc => h (by simpa using hc.mem List.mem_cons_self)
  simpa using cut?_of_not_infix hfree y

/-- An occurrence of a word that ends in its only `c` lies on one side of any other `c`. -/
theorem infix_of_infix_append {w : List Char} (hw : c ∉ w) (h : w ++ [c] <:+: x ++ c :: y) :
    w ++ [c] <:+: x ++ [c] ∨ w ++ [c] <:+: y := by
  obtain ⟨u, v, huv⟩ := h
  have hsplit : x ++ c :: y = (u ++ w) ++ c :: v := by simpa using huv.symm
  rcases List.append_eq_append_iff.mp hsplit with ⟨z, hz, hzc⟩ | ⟨z, rfl, _⟩
  · cases z with
    | nil => exact .inl ⟨u, [], by simp [← List.append_assoc, hz]⟩
    | cons d z =>
      obtain ⟨rfl, rfl⟩ := List.cons.inj hzc
      rcases List.append_eq_append_iff.mp hz with ⟨q, rfl, hq⟩ | ⟨q, rfl, hq⟩
      · exact absurd (hq ▸ by simp) hw
      · cases q with
        | nil => exact absurd (List.nil_append w ▸ hq ▸ List.mem_cons_self) hw
        | cons e q =>
          obtain ⟨rfl, rfl⟩ := List.cons.inj hq
          exact .inr ⟨q, v, by simp⟩
  · next hz =>
    cases z with
    | nil => exact .inl ⟨u, [], by simp⟩
    | cons d z =>
      obtain ⟨rfl, -⟩ := List.cons.inj hz
      exact .inl ⟨u, z ++ [c], by simp⟩

/-- So it lies in front of one of them, if it is not in what follows the last. -/
theorem not_infix_foldr {w last : List Char} {pieces : List (List Char)} (hw : c ∉ w)
    (hpieces : ∀ p ∈ pieces, ¬ w ++ [c] <:+: p ++ [c]) (hlast : c ∉ last) :
    ¬ w ++ [c] <:+: pieces.foldr (fun p rest => p ++ c :: rest) last := by
  induction pieces with
  | nil => exact fun h => hlast (h.mem (by simp))
  | cons p pieces ih =>
    intro h
    rcases infix_of_infix_append hw h with h | h
    · exact hpieces p (by simp) h
    · exact ih (fun q hq => hpieces q (by simp [hq])) h

/-! ### Trimming -/

/-- There is no blank at either end. -/
def Trimmed (s : List Char) : Prop :=
  (∀ c, s.head? = some c → isBlank c = false) ∧ ∀ c, s.getLast? = some c → isBlank c = false

theorem dropWhile_eq_self {blank : Char → Bool} (h : ∀ c, s.head? = some c → blank c = false) :
    s.dropWhile blank = s := by
  cases s with
  | nil => rfl
  | cons c s => exact List.dropWhile_cons_of_neg (by simp [h c rfl])

theorem Trimmed.trim_eq (h : Trimmed s) : trim s = s := by
  have hend : s.reverse.dropWhile isBlank = s.reverse := dropWhile_eq_self (by simpa using h.2)
  rw [trim, dropBlankEnd, dropWhile_eq_self h.1, hend, List.reverse_reverse]

end ProgramAnalysis.Text
