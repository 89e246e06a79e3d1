import ProgramAnalysis.Yaml.Scalar

/-! Quoted scalars are read as they were written: between single quotes every printable text whose
breaks have no space beside them, between double quotes every text. -/
namespace ProgramAnalysis.Yaml

variable {c : Char} {s g rest : List Char} {margin : Nat}

/-! ### Characters -/

theorem isBlank_iff_of_isPrintable (h : isPrintable c = true) : isBlank c = true ↔ c = ' ' := by
  constructor
  · intro hblank
    rcases (by simpa [isBlank] using hblank : c = ' ' ∨ c = '\t') with rfl | rfl
    · rfl
    · exact absurd h (by decide)
  · rintro rfl
    rfl

theorem isGap_eq_false_iff : isGap c = false ↔ isBlank c = false ∧ isBreak c = false := by
  rw [isGap, Bool.or_eq_false_iff]

theorem ne_of_not_isGap {d : Char} (hc : isGap c = false) (hd : isGap d = true) : c ≠ d := by
  rintro rfl
  simp [hc] at hd

theorem anyPair_cons (p q : Char → Bool) (c : Char) (s : List Char) :
    anyPair p q (c :: s) = (p c && s.head?.any q || anyPair p q s) := by
  cases s <;> simp [anyPair]

theorem atMarker_cons (hdash : c ≠ '-') (hdot : c ≠ '.') (s : List Char) :
    atMarker (c :: s) = false := by
  unfold atMarker
  split
  · next heq => exact absurd (List.cons.inj heq).1 hdash
  · next heq => exact absurd (List.cons.inj heq).1 hdot
  · rfl

/-- Nothing that starts with a break or a space marks the start or the end of a document. -/
theorem atMarker_of_isGap (h : isGap c = true) (s : List Char) : atMarker (c :: s) = false :=
  atMarker_cons (ne_of_not_isGap rfl h).symm (ne_of_not_isGap rfl h).symm s

/-! ### Single quotes -/

theorem readSingle_quote (gap : Gap) (s : List Char) : readSingle gap ('\'' :: '\'' :: s) =
    ahead (gap.text ++ ['\'']) (readSingle .empty s) := by
  rw [readSingle]

theorem readSingle_end (gap : Gap) (h : c ≠ '\'') (s : List Char) :
    readSingle gap ('\'' :: c :: s) = some (gap.text, c :: s) := by
  rw [readSingle]
  rintro cs heq
  exact h (List.cons.inj heq).1

theorem readSingle_break (gap : Gap) (h : isBreak c = true) (hs : atMarker s = false) :
    readSingle gap (c :: s) = readSingle (gap.add c) s := by
  have hquote : c ≠ '\'' := by rintro rfl; exact absurd h (by decide)
  rw [readSingle.eq_4]
  · simp [isGap, h, hs]
  · exact fun _ heq _ => hquote heq
  · exact fun heq => hquote heq

theorem readSingle_space (gap : Gap) (s : List Char) :
    readSingle gap (' ' :: s) = readSingle (gap.add ' ') s := by
  rw [readSingle.eq_4]
  · simp [isGap, isBlank, isBreak]
  all_goals simp

theorem readSingle_char (gap : Gap) (hgap : isGap c = false) (hquote : c ≠ '\'') (s : List Char) :
    readSingle gap (c :: s) = ahead (gap.text ++ [c]) (readSingle .empty s) := by
  rw [readSingle.eq_4]
  · simp [hgap]
  · exact fun _ heq _ => hquote heq
  · exact fun heq => hquote heq

/-- Breaks as they are written between single quotes, where a line feed in front stands twice. -/
def doubled (s : List Char) : List Char := if s.head? = some '\n' then '\n' :: s else s

theorem text_doubled (h : s ≠ []) : (Gap.breaks (doubled s)).text = s := by
  cases s with
  | nil => exact absurd rfl h
  | cons c s =>
    by_cases hc : c = '\n'
    · subst hc; rfl
    · rw [doubled, if_neg (by simpa using hc), Gap.text.eq_4]
      · exact fun heq => hc (List.cons.inj heq).1
      · exact fun t heq => hc (List.cons.inj heq).1

theorem doubled_concat (h : s ≠ []) (c : Char) : doubled s ++ [c] = doubled (s ++ [c]) := by
  cases s with
  | nil => exact absurd rfl h
  | cons d s => by_cases hd : d = '\n' <;> simp [doubled, hd]

theorem readSingle_margin {b : List Char} (n : Nat) (s : List Char) :
    readSingle (.breaks b) (spaces n ++ s) = readSingle (.breaks b) s := by
  induction n with
  | zero => rfl
  | succ n ih =>
    rw [spaces, List.replicate_succ, List.cons_append, readSingle_space]
    exact ih

/-- What was read since the last word: spaces on a line that goes on, or breaks, of which the
margin of the line that is due follows. -/
def Between (fresh : Bool) (gap : Gap) (g s : List Char) : Prop :=
  if fresh then gap = .breaks (doubled g) ∧ g ≠ [] ∧ s.head?.any (· == ' ') = false
  else gap = .blanks g ∧ (g ≠ [] → s.head?.any isBreak = false)

theorem Between.text {fresh : Bool} {gap : Gap} (h : Between fresh gap g s) : gap.text = g := by
  cases fresh with
  | true => obtain ⟨rfl, hne, _⟩ := h; exact text_doubled hne
  | false => obtain ⟨rfl, _⟩ := h; rfl

theorem atMarker_singleBody (hmargin : 0 < margin) (s : List Char) (c : Char) (rest : List Char) :
    atMarker (singleBody margin true s ++ '\'' :: c :: rest) = false := by
  obtain ⟨n, rfl⟩ := Nat.exists_eq_add_of_lt hmargin
  have hspaces : ∀ t, atMarker (spaces (0 + n + 1) ++ t) = false := fun t => by
    rw [spaces, List.replicate_succ, List.cons_append]
    exact atMarker_of_isGap rfl _
  cases s with
  | nil => exact hspaces _
  | cons d s =>
    rw [singleBody]
    split
    · next hd =>
      simp only [Bool.not_true, Bool.and_false, Bool.false_eq_true, if_false, List.nil_append]
      exact atMarker_of_isGap (by simp [isGap, hd]) _
    · simp only [if_true, List.append_assoc]
      exact hspaces _

theorem fitsSingle_cons (h : fitsSingle (c :: s) = true) :
    isPrintable c = true ∧ fitsSingle s = true ∧
      (isBreak c = true → s.head?.any (· == ' ') = false) ∧
      (c = ' ' → s.head?.any isBreak = false) := by
  simp only [fitsSingle, List.all_cons, anyPair_cons, Bool.and_eq_true, Bool.not_eq_true',
    Bool.or_eq_false_iff, Bool.and_eq_false_iff] at h ⊢
  obtain ⟨⟨⟨hc, hs⟩, hbreak, hbreaks⟩, hspace, hspaces⟩ := h
  refine ⟨hc, ⟨⟨hs, hbreaks⟩, hspaces⟩, fun h => ?_, fun h => ?_⟩
  · exact hbreak.resolve_left (by simp [h])
  · exact hspace.resolve_left (by simp [h])

section

variable {fresh : Bool} {gap : Gap} {d : Char}

/-- A break: the next line starts with no space, and none ended this one. -/
theorem readSingle_newline (hgap : Between fresh gap g (d :: s)) (hd : isBreak d = true)
    (hmarker : atMarker (singleBody margin true s ++ rest) = false) :
    readSingle gap (singleBody margin fresh (d :: s) ++ rest) =
      readSingle (.breaks (doubled (g ++ [d]))) (singleBody margin true s ++ rest) := by
  rw [singleBody, if_pos hd, List.append_assoc, List.cons_append]
  cases fresh with
  | true =>
    obtain ⟨rfl, hne, _⟩ := hgap
    simp only [Bool.not_true, Bool.and_false, Bool.false_eq_true, if_false, List.nil_append]
    rw [readSingle_break _ hd hmarker, Gap.add, if_pos hd, doubled_concat hne]
  | false =>
    obtain ⟨rfl, hline⟩ := hgap
    have hg : g = [] := Classical.byContradiction fun hne => by simpa [hd] using hline hne
    subst hg
    by_cases hlf : d = '\n'
    · subst hlf
      simp only [Bool.not_false, Bool.and_true, decide_true, if_true, List.cons_append,
        List.nil_append]
      rw [readSingle_break _ hd (atMarker_of_isGap rfl _), readSingle_break _ hd hmarker]
      rfl
    · simp only [hlf, decide_false, Bool.false_and, Bool.false_eq_true, if_false, List.nil_append]
      rw [readSingle_break _ hd hmarker]
      simp [doubled, hlf, Gap.add, hd]

theorem readSingle_word (hgap : Between fresh gap g (d :: s)) (hd : isGap d = false) :
    readSingle gap (singleBody margin fresh (d :: s) ++ rest) =
      ahead (g ++ [d]) (readSingle .empty (singleBody margin false s ++ rest)) := by
  have hbreak : ¬ isBreak d = true := fun h => by simp [isGap, h] at hd
  have hmargin : ∀ t, readSingle gap ((if fresh then spaces margin else []) ++ t) =
      readSingle gap t := by
    cases fresh with
    | true => obtain ⟨rfl, _⟩ := hgap; exact readSingle_margin margin
    | false => exact fun _ => rfl
  rw [singleBody, if_neg hbreak, List.append_assoc, List.append_assoc, hmargin, ← hgap.text]
  split
  · next h => subst h; exact readSingle_quote gap _
  · next h => exact readSingle_char gap hd h _

end

/-- Reading goes on from what was read since the last word; a word ends it, a space on a line and a
break go into it. -/
theorem readSingle_singleBody (hmargin : 0 < margin) (hc : c ≠ '\'') (s : List Char)
    (hfits : fitsSingle s = true) {fresh : Bool} {gap : Gap} (hgap : Between fresh gap g s) :
    readSingle gap (singleBody margin fresh s ++ '\'' :: c :: rest) = some (g ++ s, c :: rest) := by
  induction s generalizing fresh gap g with
  | nil =>
    have hend : readSingle gap ('\'' :: c :: rest) = some (g ++ [], c :: rest) := by
      rw [readSingle_end gap hc, hgap.text, List.append_nil]
    cases fresh with
    | false => exact hend
    | true =>
      obtain ⟨rfl, _⟩ := hgap
      rw [singleBody, if_pos rfl, readSingle_margin]
      exact hend
  | cons d s ih =>
    obtain ⟨hprint, hfits', hbreak, hspace⟩ := fitsSingle_cons hfits
    by_cases hd : isBreak d = true
    · have hnext : Between true (.breaks (doubled (g ++ [d]))) (g ++ [d]) s :=
        ⟨rfl, by simp, hbreak hd⟩
      rw [readSingle_newline hgap hd (atMarker_singleBody hmargin s c rest), ih hfits' hnext]
      simp
    · by_cases hblank : d = ' '
      · subst hblank
        cases fresh with
        | true => exact absurd hgap.2.2 (by simp)
        | false =>
          obtain ⟨rfl, _⟩ := hgap
          have hbody : singleBody margin false (' ' :: s) = ' ' :: singleBody margin false s := by
            simp [singleBody, isBreak]
          rw [hbody, List.cons_append, readSingle_space, show Gap.add ' ' (.blanks g) =
            .blanks (g ++ [' ']) from rfl]
          have hnext : Between false (.blanks (g ++ [' '])) (g ++ [' ']) s :=
            ⟨rfl, fun _ => hspace rfl⟩
          simpa using ih hfits' hnext
      · have hgapd : isGap d = false := by
          have hd' : ¬ isBlank d = true := fun h =>
            hblank ((isBlank_iff_of_isPrintable hprint).mp h)
          simp [isGap, hd, hd']
        have hnext : Between false .empty [] s := ⟨rfl, fun h => absurd rfl h⟩
        rw [readSingle_word hgap hgapd, ih hfits' hnext]
        simp [ahead]

theorem readSingle_writeSingle (hmargin : 0 < margin) (hc : c ≠ '\'')
    (hfits : fitsSingle s = true) (rest : List Char) :
    readSingle .empty ((writeSingle margin s).drop 1 ++ c :: rest) = some (s, c :: rest) := by
  have hstart : Between false .empty [] s := ⟨rfl, fun h => absurd rfl h⟩
  simpa [writeSingle] using readSingle_singleBody hmargin hc s hfits hstart

theorem isPrintable_of_mem_spaces {n : Nat} (h : c ∈ spaces n) : isPrintable c = true := by
  rw [List.eq_of_mem_replicate h]
  rfl

/-- The margin where it is due. -/
theorem isPrintable_of_mem_margin {fresh : Bool} :
    ∀ c ∈ (if fresh then spaces margin else []), isPrintable c = true := by
  split
  · exact fun _ => isPrintable_of_mem_spaces
  · exact List.all_eq_true.mp rfl

theorem isPrintable_singleBody {fresh : Bool} (hs : ∀ c ∈ s, isPrintable c = true) :
    ∀ c ∈ singleBody margin fresh s, isPrintable c = true := by
  induction s generalizing fresh with
  | nil => exact isPrintable_of_mem_margin
  | cons d s ih =>
    obtain ⟨hd, hs⟩ := List.forall_mem_cons.mp hs
    rw [singleBody]
    split
    · refine List.forall_mem_append.mpr ⟨?_, List.forall_mem_cons.mpr ⟨hd, ih hs⟩⟩
      split
      · exact List.all_eq_true.mp rfl
      · exact List.all_eq_true.mp rfl
    · refine List.forall_mem_append.mpr
        ⟨List.forall_mem_append.mpr ⟨isPrintable_of_mem_margin, ?_⟩, ih hs⟩
      split
      · exact List.all_eq_true.mp rfl
      · exact List.forall_mem_singleton.mpr hd

theorem isPrintable_writeSingle (hs : ∀ c ∈ s, isPrintable c = true) :
    ∀ c ∈ writeSingle margin s, isPrintable c = true :=
  List.forall_mem_cons.mpr ⟨rfl,
    List.forall_mem_append.mpr ⟨isPrintable_singleBody hs, List.forall_mem_singleton.mpr rfl⟩⟩

/-! ### Double quotes -/

theorem charOf?_toNat (c : Char) : charOf? c.toNat = some c := by
  have hvalid : c.toNat.isValidChar := c.valid
  rw [charOf?, if_pos hvalid, Char.ofNat_toNat]

theorem length_hexDigits (width n : Nat) : (Text.hexDigits width n).length = width := by
  induction width generalizing n with
  | zero => rfl
  | succ width ih => simp [Text.hexDigits, ih]

/-- The digits of a numeric escape write one character. -/
theorem readDouble_digits {gap : Gap} {more n m : Nat} {ds : List Char}
    (hlength : ds.length = more + 1)
    (hvalue : ds.foldlM (fun n c => (Text.digit? 16 c).map fun d => n * 16 + d) n = some m)
    (hchar : charOf? m = some c) :
    readDouble gap (some (more, n)) (ds ++ rest) = ahead [c] (readDouble .empty none rest) := by
  induction ds generalizing gap more n with
  | nil => simp at hlength
  | cons d ds ih =>
    simp only [List.foldlM_cons, Option.bind_eq_bind, Option.bind_eq_some_iff,
      Option.map_eq_some_iff] at hvalue
    obtain ⟨_, ⟨v, hdigit, rfl⟩, hvalue⟩ := hvalue
    rw [List.cons_append, readDouble]
    simp only [hdigit]
    cases more with
    | zero =>
      obtain rfl := List.length_eq_zero_iff.mp (Nat.succ.inj hlength)
      obtain rfl : n * 16 + v = m := by simpa using hvalue
      simp [hchar]
    | succ more => exact ih (Nat.succ.inj hlength) hvalue

theorem readDouble_escape (gap : Gap) {e : Char} (h : (e, c) ∈ escapes) (s : List Char) :
    readDouble gap none ('\\' :: e :: s) = ahead (gap.text ++ [c]) (readDouble .empty none s) := by
  have hlookup : ∀ p ∈ escapes, escapes.lookup p.1 = some p.2 ∧ isBreak p.1 = false := by decide
  obtain ⟨hc, hbreak⟩ := hlookup _ h
  rw [readDouble]
  simp [hbreak, hc]

theorem readDouble_numeric (gap : Gap) {e : Char} {more : Nat} (he : isBreak e = false)
    (hescape : escapes.lookup e = none) (hmore : escapeDigits? e = some more)
    (hc : c.toNat < Nat.pow 16 (more + 1)) (s : List Char) :
    readDouble gap none ('\\' :: e :: (Text.hexDigits (more + 1) c.toNat ++ s)) =
      ahead gap.text (ahead [c] (readDouble .empty none s)) := by
  rw [readDouble]
  simp only [he, hescape, hmore, Bool.false_eq_true, if_false]
  rw [readDouble_digits (length_hexDigits _ _)
    (by simpa using Text.foldlM_hexDigits (more + 1) c.toNat 0 hc) (charOf?_toNat c)]

theorem ahead_ahead (s t : List Char) (r : Option (List Char × List Char)) :
    ahead s (ahead t r) = ahead (s ++ t) r := by
  cases r <;> simp [ahead]

theorem ahead_nil (r : Option (List Char × List Char)) : ahead [] r = r := by
  cases r <;> simp [ahead]

theorem readDouble_writeEscape (gap : Gap) (c : Char) (s : List Char) :
    readDouble gap none (writeEscape c ++ s) =
      ahead (gap.text ++ [c]) (readDouble .empty none s) := by
  unfold writeEscape
  split
  · next e he =>
    obtain rfl : e.2 = c := by simpa using List.find?_some he
    exact readDouble_escape gap (List.mem_of_find?_eq_some he) s
  · rw [← ahead_ahead]
    split
    · next h => exact readDouble_numeric gap rfl (by decide) rfl h s
    · split
      · next h => exact readDouble_numeric gap rfl (by decide) rfl h s
      · have h : c.toNat < Nat.pow 16 8 := Nat.lt_of_lt_of_le c.val.toNat_lt (by decide)
        exact readDouble_numeric gap rfl (by decide) rfl h s

theorem readDouble_char (gap : Gap) (hgap : isGap c = false) (hquote : c ≠ '"') (hslash : c ≠ '\\')
    (s : List Char) :
    readDouble gap none (c :: s) = ahead (gap.text ++ [c]) (readDouble .empty none s) := by
  rw [readDouble]
  · simp [hgap, hslash]
  · exact hquote
  · exact fun _ _ h => absurd h hslash

theorem readDouble_space (s : List Char) :
    readDouble (.blanks g) none (' ' :: s) = readDouble (.blanks (g ++ [' '])) none s := by
  rw [readDouble]
  · simp [isGap, isBlank, isBreak, Gap.add]
  all_goals simp

/-- A character as it is written between double quotes. -/
def doubleChar (c : Char) : List Char :=
  if isPrintable c && !isBreak c && c != '"' && c != '\\' then [c] else writeEscape c

/-- The spaces before a character and the character are read, or else still wait with it. -/
theorem readDouble_doubleChar (g : List Char) (c : Char) (s : List Char) :
    ∃ t u, t ++ u = g ++ [c] ∧
      readDouble (.blanks g) none (doubleChar c ++ s) =
        ahead t (readDouble (.blanks u) none s) := by
  unfold doubleChar
  split
  · next h =>
    simp only [Bool.and_eq_true, Bool.not_eq_true', bne_iff_ne] at h
    obtain ⟨⟨⟨hprint, hbreak⟩, hquote⟩, hslash⟩ := h
    by_cases hc : c = ' '
    · subst hc
      exact ⟨[], g ++ [' '], rfl, by rw [ahead_nil]; exact readDouble_space s⟩
    · have hblank : ¬ isBlank c = true := fun h =>
        hc ((isBlank_iff_of_isPrintable hprint).mp h)
      exact ⟨g ++ [c], [], List.append_nil _, readDouble_char _ (by simp [isGap, hblank, hbreak])
        hquote hslash s⟩
  · exact ⟨g ++ [c], [], List.append_nil _, readDouble_writeEscape _ c s⟩

theorem readDouble_flatMap (g s rest : List Char) :
    readDouble (.blanks g) none (s.flatMap doubleChar ++ '"' :: rest) = some (g ++ s, rest) := by
  induction s generalizing g with
  | nil => rw [List.flatMap_nil, List.nil_append, readDouble, List.append_nil]; rfl
  | cons c s ih =>
    obtain ⟨t, u, htext, hread⟩ := readDouble_doubleChar g c (s.flatMap doubleChar ++ '"' :: rest)
    have hall : t ++ (u ++ s) = g ++ c :: s := by
      rw [← List.append_assoc, htext, List.append_assoc]
      rfl
    rw [List.flatMap_cons, List.append_assoc, hread, ih, ← hall]
    rfl

theorem readDouble_writeDouble (s rest : List Char) :
    readDouble .empty none ((writeDouble s).drop 1 ++ rest) = some (s, rest) := by
  have hbody : (writeDouble s).drop 1 = s.flatMap doubleChar ++ ['"'] := rfl
  rw [hbody, List.append_assoc]
  exact readDouble_flatMap [] s rest

theorem isPrintable_hexDigits (width n : Nat) :
    ∀ c ∈ Text.hexDigits width n, isPrintable c = true := by
  have hdigit : ∀ i : Fin 16, isPrintable (Text.hexDigit i.val) = true := by decide
  induction width generalizing n with
  | zero => simp [Text.hexDigits]
  | succ width ih =>
    have hlast := hdigit ⟨n % 16, Nat.mod_lt n (by decide)⟩
    exact List.forall_mem_append.mpr ⟨ih _, List.forall_mem_singleton.mpr hlast⟩

theorem isPrintable_writeEscape (c : Char) : ∀ d ∈ writeEscape c, isPrintable d = true := by
  -- the tab has two escapes, and the one that is not printable is never the first found
  have hletter : ∀ e ∈ escapes, escapes.find? (fun p => p.2 == e.2) = some e →
      isPrintable e.1 = true := by decide
  have hnumeric (e : Char) (he : isPrintable e = true) (width : Nat) :
      ∀ d ∈ '\\' :: e :: Text.hexDigits width c.toNat, isPrintable d = true :=
    List.forall_mem_cons.mpr ⟨rfl, List.forall_mem_cons.mpr ⟨he, isPrintable_hexDigits _ _⟩⟩
  unfold writeEscape
  split
  · next e he =>
    obtain rfl : e.2 = c := by simpa using List.find?_some he
    have := hletter e (List.mem_of_find?_eq_some he) he
    simp [this]
    rfl
  · split
    · exact hnumeric 'x' rfl _
    · split
      · exact hnumeric 'u' rfl _
      · exact hnumeric 'U' rfl _

theorem isPrintable_writeDouble (s : List Char) :
    ∀ c ∈ writeDouble s, isPrintable c = true := by
  have hchar (c : Char) : ∀ d ∈ doubleChar c, isPrintable d = true := by
    unfold doubleChar
    split
    · next h =>
      simp only [Bool.and_eq_true] at h
      exact List.forall_mem_singleton.mpr h.1.1.1
    · exact isPrintable_writeEscape c
  refine List.forall_mem_cons.mpr ⟨rfl,
    List.forall_mem_append.mpr ⟨fun d hd => ?_, List.forall_mem_singleton.mpr rfl⟩⟩
  obtain ⟨c, -, hd⟩ := List.mem_flatMap.mp hd
  exact hchar c d hd

end ProgramAnalysis.Yaml
