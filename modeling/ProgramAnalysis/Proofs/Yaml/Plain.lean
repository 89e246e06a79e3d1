import ProgramAnalysis.Proofs.Yaml.Block

/-! A plain scalar is read as it was written, up to the colon after it or to the end of its line. -/
namespace ProgramAnalysis.Yaml

variable {c : Char} {g s t : List Char} {indent column : Nat}

/-! ### One character -/

theorem readPlain_space (g s : List Char) (indent column : Nat) :
    readPlain false indent column (.blanks g) (' ' :: s) =
      readPlain false indent (column + 1) (.blanks (g ++ [' '])) s := by
  rw [readPlain]
  simp [isBreak, isBlank, Gap.isBroken, Gap.add]

/-- A character that is no gap goes into the scalar, unless it starts a comment or a marker or is
the colon after a key. -/
theorem readPlain_char (hgap : isGap c = false) (hcomment : c = '#' → g = [])
    (hmarker : column = 0 → atMarker (c :: s) = false) (hkey : c = ':' → atGap s = false) :
    readPlain false indent column (.blanks g) (c :: s) =
      (readPlain false indent (column + 1) .empty s).map fun p =>
        { p with text := g ++ c :: p.text } := by
  obtain ⟨hblank, hbreak⟩ := isGap_eq_false_iff.mp hgap
  have hempty (h : c = '#') : Gap.isEmpty (.blanks g) = true := by
    rw [hcomment h]
    rfl
  rw [readPlain]
  simp only [hbreak, hblank, Gap.isBroken, Bool.false_eq_true, if_false, Bool.and_false,
    Bool.false_and, Gap.text]
  rw [if_neg, if_neg, if_neg]
  · simpa using hkey
  · simpa using hempty
  · simpa using hmarker

/-! ### A text on one line -/

/-- Text that goes on a plain scalar after the blanks `g`. -/
structure Continues (g s : List Char) : Prop where
  printable : ∀ c ∈ s, isPrintable c = true
  oneLine : ∀ c ∈ s, isBreak c = false
  noKey : endsKey s = false
  noComment : anyPair isGap (· == '#') s = false
  noCommentAtOnce : s.head? = some '#' → g = []
  ends : s.getLast? ≠ some ' '
  full : s = [] → g = []

theorem Continues.cons_space (h : Continues g (' ' :: s)) : Continues (g ++ [' ']) s := by
  have hne : s ≠ [] := by
    rintro rfl
    exact h.ends rfl
  have hcomment := h.noComment
  rw [anyPair_cons, Bool.or_eq_false_iff] at hcomment
  refine ⟨fun c hc => h.printable c (by simp [hc]), fun c hc => h.oneLine c (by simp [hc]), ?_,
    hcomment.2, fun hhead => ?_, ?_, fun hs => absurd hs hne⟩
  · simpa [endsKey] using h.noKey
  · simp [hhead, isGap, isBlank] at hcomment
  · have := h.ends
    rwa [List.getLast?_cons_of_ne_nil hne] at this

theorem Continues.cons (h : Continues g (c :: s)) : Continues [] s := by
  have hcomment := h.noComment
  rw [anyPair_cons, Bool.or_eq_false_iff] at hcomment
  have hkey := h.noKey
  rw [endsKey, Bool.or_eq_false_iff] at hkey
  refine ⟨fun d hd => h.printable d (by simp [hd]), fun d hd => h.oneLine d (by simp [hd]),
    hkey.2, hcomment.2, fun _ => rfl, ?_, fun _ => rfl⟩
  cases s with
  | nil => simp
  | cons d s => simpa using h.ends

theorem readPlain_append (indent : Nat) (h : Continues g s) (t : List Char)
    (hmarker : column = 0 → atMarker (s ++ t) = false) :
    readPlain false indent column (.blanks g) (s ++ t) =
      (readPlain false indent (column + s.length) .empty t).map fun p =>
        { p with text := g ++ s ++ p.text } := by
  induction s generalizing g column with
  | nil =>
    rw [h.full rfl]
    simp [Gap.empty]
  | cons c s ih =>
    have hlater : ∀ n, n + 1 = 0 → atMarker (s ++ t) = false := fun n hn => by omega
    have hcolumn : column + 1 + s.length = column + (s.length + 1) := by omega
    by_cases hspace : c = ' '
    · subst hspace
      rw [List.cons_append, readPlain_space, ih h.cons_space (hlater column), hcolumn]
      simp
    · have hgap : isGap c = false := by
        have hblank : ¬ isBlank c = true := fun hblank =>
          hspace ((isBlank_iff_of_isPrintable (h.printable c (by simp))).mp hblank)
        simp [isGap, hblank, h.oneLine c]
      have hkey (hc : c = ':') : atGap (s ++ t) = false := by
        have hword := h.noKey
        simp only [endsKey, hc, Bool.or_eq_false_iff] at hword
        cases s with
        | nil => exact absurd hword.1 (by decide)
        | cons d s => simpa [atGap] using hword.1
      rw [List.cons_append, readPlain_char (s := s ++ t) hgap
        (fun hc => h.noCommentAtOnce (by simp [hc])) hmarker hkey,
        show Gap.empty = .blanks [] from rfl, ih h.cons (hlater column), hcolumn, Option.map_map]
      simp [Function.comp_def, Gap.empty]

/-! ### Ends -/

theorem readPlain_colon (indent column : Nat) (ht : atGap t = true) :
    readPlain false indent column .empty (':' :: t) = some ⟨[], false, ':' :: t⟩ := by
  rw [readPlain]
  simp [isBreak, isBlank, Gap.empty, Gap.isBroken, Gap.isEmpty, ht]

theorem readPlain_margin {b : List Char} (indent column k : Nat) (t : List Char) :
    readPlain false indent column (.breaks b) (spaces k ++ t) =
      readPlain false indent (column + k) (.breaks b) t := by
  induction k generalizing column with
  | zero => rfl
  | succ k ih =>
    have hcolumn : column + 1 + k = column + (k + 1) := by omega
    rw [spaces, List.replicate_succ, List.cons_append, readPlain, ← hcolumn, ← ih]
    simp [isBreak, isBlank, Gap.add, spaces]

/-- The scalar ends before the next line, whose margin is passed over. -/
theorem readPlain_newline (column : Nat) (h : Outside indent t) :
    readPlain false indent column .empty ('\n' :: t) =
      some ⟨[], true, unindented t⟩ := by
  have hbreak : readPlain false indent column .empty ('\n' :: t) =
      readPlain false indent 0 (.breaks ['\n']) t := by
    rw [readPlain]
    simp [isBreak, Gap.add, Gap.empty]
  rw [hbreak]
  rcases h with rfl | ⟨k, c, r, hk, hc, -, rfl⟩
  · rfl
  · obtain ⟨hblank, hbreak⟩ := isGap_eq_false_iff.mp hc
    rw [readPlain_margin, unindented_append, unindented_word (ne_of_not_isGap hc rfl), readPlain]
    simp [hblank, hbreak, Gap.isBroken, hk]

theorem startsPlain_append (h : startsPlain false s = true) (t : List Char) :
    startsPlain false (s ++ t) = true := by
  cases s with
  | nil => contradiction
  | cons c s =>
    have hgap (hs : atGap s = false) : atGap (s ++ t) = false := by
      cases s with
      | nil => contradiction
      | cons d s => exact hs
    rw [startsPlain] at h
    rw [List.cons_append, startsPlain]
    split at h
    · contradiction
    · next hc =>
      rw [if_neg hc]
      split at h
      · next hdash => simp [hdash, hgap (by simpa using h)]
      · next hdash =>
        rw [if_neg hdash]
        split at h
        · next hmark => simp [hmark, hgap (by simpa using h)]
        · next hmark => rw [if_neg hmark]

/-- What may be written plainly may start a plain scalar and go on with it. -/
theorem continues_of_fitsPlain (hprint : ∀ c ∈ s, isPrintable c = true)
    (hbreak : ∀ c ∈ s, isBreak c = false) (hfits : fitsPlain s = true) : Continues [] s := by
  simp only [fitsPlain, Bool.and_eq_true, Bool.not_eq_true', bne_iff_ne] at hfits
  obtain ⟨⟨⟨-, hkey⟩, hlast⟩, hcomment⟩ := hfits
  exact ⟨hprint, hbreak, hkey, hcomment, fun _ => rfl, hlast, fun _ => rfl⟩

end ProgramAnalysis.Yaml
