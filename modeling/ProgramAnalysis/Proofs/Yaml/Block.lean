import ProgramAnalysis.Proofs.Yaml.Quoted

/-! A literal scalar is read as it was written: the lines of the text stand below one another,
indented alike, up to a line that is indented less, and the header says how they end. -/
namespace ProgramAnalysis.Yaml

variable {margin : Nat} {c : Char} {s t rest : List Char}

/-- Text that ends, or goes on with a word on a line that is indented less than `margin`. -/
def Outside (margin : Nat) (s : List Char) : Prop :=
  s = [] ∨ ∃ k c r, k < margin ∧ isGap c = false ∧ c ≠ '#' ∧ s = spaces k ++ c :: r

/-- The spaces a line starts with. -/
def marginOf (s : List Char) : Nat := (s.takeWhile (· == ' ')).length

def unindented (s : List Char) : List Char := s.dropWhile (· == ' ')

theorem marginOf_append (n : Nat) (s : List Char) :
    marginOf (spaces n ++ s) = n + marginOf s := by
  rw [marginOf, List.takeWhile_append_of_pos fun c hc => by simp [List.eq_of_mem_replicate hc]]
  simp [spaces, marginOf]

theorem marginOf_word (hc : c ≠ ' ') (s : List Char) : marginOf (c :: s) = 0 := by
  simp [marginOf, hc]

theorem unindented_append (n : Nat) (s : List Char) :
    unindented (spaces n ++ s) = unindented s :=
  List.dropWhile_append_of_pos fun c hc => by simp [List.eq_of_mem_replicate hc]

theorem unindented_word (hc : c ≠ ' ') (s : List Char) : unindented (c :: s) = c :: s := by
  simp [unindented, hc]

theorem spaces_marginOf_append (s : List Char) : spaces (marginOf s) ++ unindented s = s := by
  induction s with
  | nil => rfl
  | cons c s ih =>
    by_cases hc : c = ' '
    · simpa [marginOf, unindented, spaces, hc, List.replicate_succ] using ih
    · rw [marginOf_word hc, unindented_word hc]
      rfl

/-! ### Lines -/

/-- A line that ends in a break. -/
def TextLine.Complete (l : TextLine) : Prop :=
  (∀ c ∈ l.text, isBreak c = false) ∧ ∃ c, isBreak c = true ∧ l.ending = [c]

theorem unlines_cons (l : TextLine) (ls : List TextLine) :
    unlines (l :: ls) = l.text ++ l.ending ++ unlines ls := rfl

theorem exists_lines (s : List Char) : ∃ l ls, lines s = l :: ls := by
  cases s with
  | nil => exact ⟨_, _, rfl⟩
  | cons c s =>
    rw [lines]
    split
    · exact ⟨_, _, rfl⟩
    · split <;> exact ⟨_, _, rfl⟩

theorem lines_cons_text {l : TextLine} {ls : List TextLine} (hc : isBreak c = false)
    (h : lines s = l :: ls) : lines (c :: s) = { l with text := c :: l.text } :: ls := by
  rw [lines, if_neg (by simp [hc]), h]

theorem lines_append_text {l : TextLine} {ls : List TextLine} (ht : ∀ c ∈ t, isBreak c = false)
    (h : lines s = l :: ls) : lines (t ++ s) = { l with text := t ++ l.text } :: ls := by
  induction t with
  | nil => exact h
  | cons c t ih =>
    exact lines_cons_text (ht c (by simp)) (ih fun d hd => ht d (by simp [hd]))

theorem unlines_lines (s : List Char) : unlines (lines s) = s := by
  induction s with
  | nil => rfl
  | cons c s ih =>
    by_cases hc : isBreak c = true
    · rw [lines, if_pos hc, unlines_cons, ih]
      rfl
    · obtain ⟨l, ls, hlines⟩ := exists_lines s
      rw [hlines] at ih
      rw [lines_cons_text (by simpa using hc) hlines, unlines_cons, ← ih, unlines_cons]
      rfl

theorem lines_unlines_append {ls : List TextLine} (h : ∀ l ∈ ls, l.Complete) :
    lines (unlines ls ++ rest) = ls ++ lines rest := by
  induction ls with
  | nil => rfl
  | cons l ls ih =>
    obtain ⟨htext, c, hc, hending⟩ := h l (by simp)
    have htail : lines (l.ending ++ (unlines ls ++ rest)) =
        ⟨[], l.ending⟩ :: (ls ++ lines rest) := by
      rw [hending, ← ih fun m hm => h m (by simp [hm]), List.singleton_append, lines, if_pos hc]
    rw [unlines_cons, List.append_assoc, List.append_assoc, lines_append_text htext htail]
    simp

/-- Text that ends in a break is made of complete lines. -/
theorem exists_unlines (hs : s ≠ [] → endsInBreak s = true) :
    ∃ ls, (∀ l ∈ ls, l.Complete) ∧ unlines ls = s := by
  induction s with
  | nil => exact ⟨[], by simp, rfl⟩
  | cons c s ih =>
    have hrest : s ≠ [] → endsInBreak s = true := fun hne => by
      simpa [endsInBreak, List.getLast?_cons_of_ne_nil hne] using hs (by simp)
    obtain ⟨ls, hcomplete, rfl⟩ := ih hrest
    by_cases hc : isBreak c = true
    · refine ⟨⟨[], [c]⟩ :: ls, ?_, rfl⟩
      intro l hl
      rcases List.mem_cons.mp hl with rfl | hl
      · exact ⟨by simp, c, hc, rfl⟩
      · exact hcomplete l hl
    · cases ls with
      | nil => exact absurd (by simpa [endsInBreak, unlines] using hs (by simp)) hc
      | cons l ls =>
        refine ⟨{ l with text := c :: l.text } :: ls, ?_, rfl⟩
        intro m hm
        rcases List.mem_cons.mp hm with rfl | hm
        · obtain ⟨htext, hending⟩ := hcomplete l (by simp)
          exact ⟨List.forall_mem_cons.mpr ⟨by simpa using hc, htext⟩, hending⟩
        · exact hcomplete m (by simp [hm])

/-! ### Indented lines -/

/-- A line of a literal scalar as it is written: an empty one gets no margin. -/
def TextLine.indented (margin : Nat) (l : TextLine) : TextLine :=
  if l.text = [] then l else { l with text := spaces margin ++ l.text }

theorem isBreak_of_mem_spaces {n : Nat} (h : c ∈ spaces n) : isBreak c = false := by
  rw [List.eq_of_mem_replicate h]
  rfl

theorem TextLine.Complete.indented {l : TextLine} (h : l.Complete) (margin : Nat) :
    (l.indented margin).Complete := by
  unfold TextLine.indented
  split
  · exact h
  · refine ⟨fun c hc => ?_, h.2⟩
    rcases List.mem_append.mp hc with hc | hc
    · exact isBreak_of_mem_spaces hc
    · exact h.1 c hc

theorem literalBody_text (ht : ∀ c ∈ t, isBreak c = false) (s : List Char) :
    literalBody margin false (t ++ s) = t ++ literalBody margin false s := by
  induction t with
  | nil => rfl
  | cons c t ih =>
    rw [List.cons_append, literalBody, if_neg (by simp [ht c]),
      ih fun d hd => ht d (by simp [hd])]
    rfl

theorem literalBody_unlines {ls : List TextLine} (h : ∀ l ∈ ls, l.Complete) :
    literalBody margin true (unlines ls) = unlines (ls.map (TextLine.indented margin)) := by
  induction ls with
  | nil => rfl
  | cons l ls ih =>
    obtain ⟨text, ending⟩ := l
    obtain ⟨htext, b, hb, rfl⟩ := h ⟨text, ending⟩ (by simp)
    have hbreak : ∀ fresh, literalBody margin fresh (b :: unlines ls) =
        b :: unlines (ls.map (TextLine.indented margin)) := fun fresh => by
      rw [literalBody, if_pos hb, ih fun m hm => h m (by simp [hm])]
    cases text with
    | nil => exact hbreak true
    | cons c text =>
      have hc : isBreak c = false := htext c (by simp)
      have hlater : ∀ d ∈ text, isBreak d = false := fun d hd => htext d (by simp [hd])
      have hindented : TextLine.indented margin ⟨c :: text, [b]⟩ =
          ⟨spaces margin ++ c :: text, [b]⟩ := by simp [TextLine.indented]
      rw [List.map_cons, unlines_cons, unlines_cons, hindented]
      simp only [List.append_assoc, List.cons_append, List.nil_append]
      rw [literalBody, if_neg (by simp [hc]), if_pos rfl, literalBody_text hlater, hbreak]
      rfl

/-- A break at the end gets no margin. -/
theorem literalBody_concat (hc : isBreak c = true) (s : List Char) (fresh : Bool) :
    literalBody margin fresh (s ++ [c]) = literalBody margin fresh s ++ [c] := by
  induction s generalizing fresh with
  | nil => simp [literalBody, hc]
  | cons d s ih =>
    rw [List.cons_append, literalBody, literalBody, ih, ih]
    split <;> simp

/-! ### Reading the lines -/

/-- A line with a word: its margin ends there, and no tab is part of it. -/
theorem line_word (k : Nat) (hspace : c ≠ ' ') (htab : c ≠ '\t') (s e : List Char) :
    (TextLine.mk (spaces k ++ c :: s) e).indent = k ∧
      (TextLine.mk (spaces k ++ c :: s) e).isMargin = false ∧
      (TextLine.mk (spaces k ++ c :: s) e).hasTabMargin = false := by
  have hindent : (TextLine.mk (spaces k ++ c :: s) e).indent = k := by
    rw [TextLine.indent, ← marginOf, marginOf_append, marginOf_word hspace, Nat.add_zero]
  refine ⟨hindent, by simp [TextLine.isMargin, hspace], ?_⟩
  rw [TextLine.hasTabMargin, hindent]
  simp [spaces, htab]

/-- The first line that is indented less ends the scalar. -/
theorem blockText?_outside (h : Outside margin rest) :
    blockText? margin (lines rest) = some ⟨[], [], lines rest⟩ := by
  rcases h with rfl | ⟨k, c, r, hk, hc, -, rfl⟩
  · rw [lines, blockText?]
    simp [TextLine.isMargin, TextLine.indent, TextLine.hasTabMargin]
  · obtain ⟨l, ls, hlines⟩ := exists_lines r
    have hbreak := (isGap_eq_false_iff.mp hc).2
    rw [lines_append_text (fun _ => isBreak_of_mem_spaces) (lines_cons_text hbreak hlines)]
    obtain ⟨hindent, hmargin, htabMargin⟩ :=
      line_word k (ne_of_not_isGap hc rfl) (ne_of_not_isGap hc rfl) l.text l.ending
    rw [blockText?]
    simp only [hmargin, hindent, htabMargin, Bool.false_and, Bool.and_false, Bool.false_eq_true,
      if_false]
    rw [if_neg]
    simp only [Bool.and_eq_true, decide_eq_true_eq]
    omega

def BlockLine.whole (l : BlockLine) : List Char := l.text ++ l.ending ++ l.gap

def BlockText.whole (b : BlockText) : List Char := b.lead ++ b.lines.flatMap BlockLine.whole

/-- Breaks alone stand before the lines and between them. -/
structure BlockText.Parted (b : BlockText) : Prop where
  lead : ∀ c ∈ b.lead, isBreak c = true
  ending : ∀ l ∈ b.lines, ∃ c, isBreak c = true ∧ l.ending = [c]
  gap : ∀ l ∈ b.lines, ∀ c ∈ l.gap, isBreak c = true

theorem blockText?_append {ls : List TextLine} (h : ∀ l ∈ ls, l.Complete)
    (hrest : Outside margin rest) :
    ∃ b, blockText? margin (ls.map (TextLine.indented margin) ++ lines rest) = some b ∧
      b.rest = lines rest ∧ b.whole = unlines ls ∧ b.Parted := by
  induction ls with
  | nil =>
    exact ⟨_, blockText?_outside hrest, rfl, rfl, ⟨by simp, by simp, by simp⟩⟩
  | cons l ls ih =>
    obtain ⟨b, hread, hlines, hwhole, hparted⟩ := ih fun m hm => h m (by simp [hm])
    obtain ⟨text, ending⟩ := l
    obtain ⟨htext, e, he, rfl⟩ := h ⟨text, ending⟩ (by simp)
    rw [List.map_cons, List.cons_append, blockText?, hread, unlines_cons, ← hwhole]
    by_cases hempty : text = []
    · subst hempty
      refine ⟨{ b with lead := e :: b.lead }, ?_, hlines, rfl, ?_, hparted.ending, hparted.gap⟩
      · simp [TextLine.indented, TextLine.isMargin]
      · exact List.forall_mem_cons.mpr ⟨he, hparted.lead⟩
    · have hindented : TextLine.indented margin ⟨text, [e]⟩ = ⟨spaces margin ++ text, [e]⟩ :=
        if_neg hempty
      have hlength : margin < (spaces margin ++ text).length := by
        have := List.length_pos_iff.mpr hempty
        simp only [spaces, List.length_append, List.length_replicate]
        omega
      refine ⟨⟨[], ⟨text, [e], b.lead⟩ :: b.lines, b.rest⟩, ?_, hlines, ?_, by simp, ?_, ?_⟩
      · rw [hindented, if_neg (by simp only [Bool.and_eq_true, decide_eq_true_eq]; omega), if_pos]
        · simp [spaces]
        · rw [TextLine.indent, ← marginOf, marginOf_append]
          simp only [Bool.and_eq_true, decide_eq_true_eq]
          omega
      · simp [BlockText.whole, BlockLine.whole]
      · exact List.forall_mem_cons.mpr ⟨⟨e, he, rfl⟩, hparted.ending⟩
      · exact List.forall_mem_cons.mpr ⟨hparted.lead, hparted.gap⟩

/-! ### Ends -/

theorem joinLines_concat (ls : List BlockLine) (l : BlockLine) :
    joinLines false (ls ++ [l]) = ls.flatMap BlockLine.whole ++ l.text := by
  induction ls with
  | nil => rfl
  | cons m ls ih =>
    cases ls with
    | nil => simp [joinLines, between, BlockLine.whole]
    | cons n ls =>
      rw [List.cons_append, List.cons_append, joinLines, ← List.cons_append, ih]
      simp [between, BlockLine.whole]

theorem BlockText.text_concat {b : BlockText} {ls : List BlockLine} {l : BlockLine}
    (h : b.lines = ls ++ [l]) (chomp : Chomp) :
    b.text false chomp = b.lead ++ ls.flatMap BlockLine.whole ++ l.text ++
      match chomp with
      | .strip => []
      | .clip => l.ending
      | .keep => l.ending ++ l.gap := by
  cases chomp <;> simp [BlockText.text, h, joinLines_concat]

theorem eq_nil_or_append_singleton {α : Type} (l : List α) : l = [] ∨ ∃ m a, l = m ++ [a] := by
  simpa only [List.concat_eq_append] using List.eq_nil_or_concat l

theorem BlockText.text_keep (b : BlockText) : b.text false .keep = b.whole := by
  rcases eq_nil_or_append_singleton b.lines with h | ⟨ls, l, h⟩
  · simp [BlockText.text, BlockText.whole, h]
  · rw [text_concat h]
    simp [BlockText.whole, BlockLine.whole, h]

/-- Where only one break follows the last line, it is that line's own. -/
theorem BlockText.Parted.text {b : BlockText} (h : b.Parted) {d : Char}
    (hwhole : b.whole = s ++ [d] ++ [c]) (hd : isBreak d = false) :
    b.text false .clip = s ++ [d] ++ [c] ∧ b.text false .strip = s ++ [d] := by
  rcases eq_nil_or_append_singleton b.lines with hlines | ⟨ls, l, hlines⟩
  · have hlead : b.lead = s ++ [d] ++ [c] := by
      rw [← hwhole, BlockText.whole, hlines]
      simp
    exact absurd (h.lead d (by simp [hlead])) (by simp [hd])
  · obtain ⟨e, he, hending⟩ := h.ending l (by simp [hlines])
    have hgap := h.gap l (by simp [hlines])
    have hsplit : b.lead ++ ls.flatMap BlockLine.whole ++ l.text ++ [e] ++ l.gap =
        s ++ [d] ++ [c] := by
      rw [← hwhole, BlockText.whole, hlines]
      simp [BlockLine.whole, hending]
    -- were there one more break, the character before the last would be a break
    have hnone : l.gap = [] := by
      rcases eq_nil_or_append_singleton l.gap with hnil | ⟨g, x, hg⟩
      · exact hnil
      · rw [hg, ← List.append_assoc] at hsplit
        have hbefore := congrArg List.getLast? (List.append_inj' hsplit rfl).1
        have hmem : d ∈ e :: g := List.mem_of_getLast? (by simpa using hbefore)
        rcases List.mem_cons.mp hmem with rfl | hmem
        · exact absurd he (by simp [hd])
        · exact absurd (hgap d (by simp [hg, hmem])) (by simp [hd])
    rw [hnone, List.append_nil] at hsplit
    obtain ⟨hbody, hlast⟩ := List.append_inj' hsplit rfl
    rw [text_concat hlines, text_concat hlines, hending]
    exact ⟨hsplit, by simpa using hbody⟩

/-! ### The header -/

/-- How the breaks at the end of a text are told apart from those of the document. -/
def chompOf (s : List Char) : Chomp :=
  match s.reverse with
  | [] => .strip
  | [c] => if isBreak c then .keep else .strip
  | c :: d :: _ => if !isBreak c then .strip else if isBreak d then .keep else .clip

def writeChomp : Chomp → List Char
  | .strip => ['-']
  | .clip => []
  | .keep => ['+']

/-- Whether the text starts with what would be taken for a part of the margin. -/
def hidesMargin (s : List Char) : Bool := s.head?.any fun c => c == ' ' || isBreak c

theorem literalHeader_eq (s : List Char) : literalHeader s =
    '|' :: (if hidesMargin s then ['2'] else []) ++ writeChomp (chompOf s) ++ ['\n'] := by
  unfold literalHeader chompOf
  refine congrArg (· ++ ['\n']) (congr (congrArg (fun a b => '|' :: a ++ b) ?increment) ?chomp)
  · cases s <;> rfl
  · generalize s.reverse = ends
    rcases ends with _ | ⟨c, _ | ⟨d, ends⟩⟩
    · rfl
    · cases hc : isBreak c <;> simp [hc, writeChomp]
    · cases hc : isBreak c <;> cases hd : isBreak d <;> simp [hc, hd, writeChomp]

theorem readHeader_literalHeader (s t : List Char) :
    readHeader ((literalHeader s).drop 1 ++ t) =
      some (⟨chompOf s, if hidesMargin s then some indentStep else none⟩, '\n' :: t) := by
  rw [literalHeader_eq]
  cases hidesMargin s <;> cases chompOf s <;> rfl

/-- The text with a break after it. -/
def closed (s : List Char) : List Char := s ++ if endsInBreak s then [] else ['\n']

theorem endsInBreak_concat (s : List Char) (c : Char) : endsInBreak (s ++ [c]) = isBreak c := by
  simp [endsInBreak]

theorem endsInBreak_closed (s : List Char) : endsInBreak (closed s) = true := by
  unfold closed
  split
  · next h => rwa [List.append_nil]
  · exact endsInBreak_concat s _

theorem literalBody_closed (s : List Char) : literalBody margin true (closed s) =
    literalBody margin true s ++ if endsInBreak s then [] else ['\n'] := by
  unfold closed
  split
  · simp
  · exact literalBody_concat rfl s true

theorem BlockText.Parted.text_chompOf {b : BlockText} (h : b.Parted) (hs : s ≠ [])
    (hwhole : b.whole = closed s) : b.text false (chompOf s) = s := by
  obtain ⟨p, c, rfl⟩ := (eq_nil_or_append_singleton s).resolve_left hs
  rw [closed, endsInBreak_concat] at hwhole
  by_cases hc : isBreak c = true
  · rw [if_pos hc, List.append_nil] at hwhole
    rcases eq_nil_or_append_singleton p with rfl | ⟨q, d, rfl⟩
    · simpa [chompOf, hc, text_keep] using hwhole
    · cases hd : isBreak d with
      | true => simpa [chompOf, hc, hd, text_keep] using hwhole
      | false => simpa [chompOf, hc, hd] using (h.text hwhole hd).1
  · rw [if_neg hc] at hwhole
    have hstrip : chompOf (p ++ [c]) = .strip := by
      rcases eq_nil_or_append_singleton p with rfl | ⟨q, d, rfl⟩ <;> simp [chompOf, hc]
    rw [hstrip]
    exact (h.text hwhole (by simpa using hc)).2

/-- A first line that starts with neither a space nor a break shows how deep the lines are. -/
theorem deepest?_indented {m : Nat} {l : TextLine} {ls : List TextLine} (hl : l.Complete)
    (h : unlines (l :: ls) = c :: t) (hhides : hidesMargin (c :: t) = false) (htab : c ≠ '\t')
    (ms : List TextLine) :
    deepest? (max 1 (m + 1)) (l.indented (m + indentStep) :: ms) = some (m + indentStep) := by
  obtain ⟨text, ending⟩ := l
  obtain ⟨-, e, he, rfl⟩ := hl
  simp only [hidesMargin, List.head?_cons, Option.any_some, Bool.or_eq_false_iff] at hhides
  cases text with
  | nil =>
    obtain rfl : e = c := (List.cons.inj h).1
    exact absurd he (by simp [hhides.2])
  | cons d text =>
    obtain rfl : d = c := (List.cons.inj h).1
    have hindented : TextLine.indented (m + indentStep) ⟨d :: text, [e]⟩ =
        ⟨spaces (m + indentStep) ++ d :: text, [e]⟩ := by simp [TextLine.indented]
    obtain ⟨hindent, hmargin, htabMargin⟩ :=
      line_word (m + indentStep) (beq_eq_false_iff_ne.mp hhides.1) htab text [e]
    rw [hindented, deepest?, hmargin, htabMargin, hindent]
    simp only [Bool.false_and, Bool.false_eq_true, if_false, indentStep, Option.some.injEq]
    omega

/-- The text comes back, with its breaks at the end, and the line after it is left. -/
theorem readBlock_writeLiteral {m : Nat} (hs : s ≠ []) (htab : s.head? ≠ some '\t')
    (hrest : Outside (m + indentStep) rest) :
    readBlock false (some m) ((writeLiteral (m + indentStep) s).drop 1 ++
      (if endsInBreak s then [] else ['\n']) ++ rest) = some (s, rest) := by
  obtain ⟨ls, hcomplete, hls⟩ := exists_unlines fun _ => endsInBreak_closed s
  have hbody : literalBody (m + indentStep) true s ++ (if endsInBreak s then [] else ['\n']) =
      unlines (ls.map (TextLine.indented (m + indentStep))) := by
    rw [← literalBody_closed, ← hls, literalBody_unlines hcomplete]
  have htext : (writeLiteral (m + indentStep) s).drop 1 ++
      (if endsInBreak s then [] else ['\n']) ++ rest = (literalHeader s).drop 1 ++
        (unlines (ls.map (TextLine.indented (m + indentStep))) ++ rest) := by
    rw [← hbody, writeLiteral, literalHeader_eq]
    simp
  have hlines : lines (unlines (ls.map (TextLine.indented (m + indentStep))) ++ rest) =
      ls.map (TextLine.indented (m + indentStep)) ++ lines rest := by
    refine lines_unlines_append fun l hl => ?_
    obtain ⟨k, hk, rfl⟩ := List.mem_map.mp hl
    exact (hcomplete k hk).indented _
  obtain ⟨b, hread, hleft, hwhole, hparted⟩ := blockText?_append hcomplete hrest
  have hdeepest (hhides : hidesMargin s = false) : deepest? (max 1 (m + 1))
      (ls.map (TextLine.indented (m + indentStep)) ++ lines rest) = some (m + indentStep) := by
    obtain ⟨c, t, rfl⟩ := List.exists_cons_of_ne_nil hs
    cases ls with
    | nil => exact absurd hls (by simp [closed, unlines])
    | cons l ls =>
      exact deepest?_indented (hcomplete l (by simp)) hls hhides (by simpa using htab) _
  have hline : ∀ t, endLine? ('\n' :: t) = some t := fun _ => rfl
  rw [htext, readBlock, readHeader_literalHeader]
  simp only [Option.bind_eq_bind, Option.bind_some, hline, hlines, Option.getD_some,
    Option.map_some]
  have hall : unlines b.rest = rest := by rw [hleft, unlines_lines]
  have hsame : b.text false (chompOf s) = s := hparted.text_chompOf hs (hwhole.trans hls)
  cases hhides : hidesMargin s with
  | true => simp [hread, hall, hsame]
  | false =>
    simp only [Bool.false_eq_true, if_false, hdeepest hhides, Option.bind_some, hread, hall, hsame,
      Option.pure_def]

theorem isPrintable_literalBody {fresh : Bool} (hs : ∀ c ∈ s, isPrintable c = true) :
    ∀ c ∈ literalBody margin fresh s, isPrintable c = true := by
  induction s generalizing fresh with
  | nil => simp [literalBody]
  | cons d s ih =>
    have hbody (fresh) : ∀ c ∈ literalBody margin fresh s, isPrintable c = true :=
      ih fun c hc => hs c (by simp [hc])
    have hd := hs d (by simp)
    rw [literalBody]
    split
    · exact List.forall_mem_cons.mpr ⟨hd, hbody true⟩
    · refine List.forall_mem_append.mpr ⟨fun c hc => ?_, List.forall_mem_cons.mpr ⟨hd, hbody false⟩⟩
      split at hc
      · exact isPrintable_of_mem_spaces hc
      · exact absurd hc List.not_mem_nil

theorem isPrintable_writeLiteral (hs : ∀ c ∈ s, isPrintable c = true) :
    ∀ c ∈ writeLiteral margin s, isPrintable c = true := by
  refine List.forall_mem_append.mpr ⟨List.all_eq_true.mp ?_, isPrintable_literalBody hs⟩
  rw [literalHeader_eq]
  cases hidesMargin s <;> cases chompOf s <;> rfl

end ProgramAnalysis.Yaml
