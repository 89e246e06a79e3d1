import ProgramAnalysis.Proofs.Yaml.Outline

/-! The tokens of a written outline. Between two fields no key is pending, and what the lexer does
next depends only on the line it is at and on the blocks that line leaves open; three steps take it
past a key, its colon and its value, and by induction the steps for the fields of a mapping, nested
ones included, take it to the line after them. -/
namespace ProgramAnalysis.Yaml

variable {c : Char} {s t u r : List Char} {p : Position} {blocks : List Nat}
  {tokens : List Token} {allowed : Bool} {margin : Nat}

/-! ### Positions -/

namespace Position

theorem past_append (p : Position) (s t : List Char) : p.past (s ++ t) = (p.past s).past t :=
  List.foldl_append

theorem past_line (h : ∀ c ∈ s, isBreak c = false) (p : Position) :
    p.past s = ⟨p.line, p.column + s.length⟩ := by
  induction s generalizing p with
  | nil => rfl
  | cons c s ih =>
    have hc : p.after c = ⟨p.line, p.column + 1⟩ := by simp [after, h c]
    rw [past, List.foldl_cons, hc]
    refine (ih (fun d hd => h d (by simp [hd])) _).trans ?_
    simp only [List.length_cons, Position.mk.injEq, true_and]
    omega

theorem column_past_break (p : Position) (s : List Char) (hc : isBreak c = true) :
    (p.past (s ++ [c])).column = 0 := by
  rw [past_append]
  simp [past, after, hc]

end Position

/-! ### Gaps -/

namespace Lexer

theorem skipGap_spaces (allowed : Bool) (n : Nat) (s : List Char) :
    skipGap false allowed false (spaces n ++ s) = skipGap false allowed false s := by
  induction n with
  | zero => rfl
  | succ n ih =>
    rw [spaces, List.replicate_succ, List.cons_append, skipGap]
    simpa [isBreak, spaces] using ih

theorem skipGap_newline (allowed : Bool) (s : List Char) :
    skipGap false allowed false ('\n' :: s) = skipGap false true false s := by
  rw [skipGap]
  simp [isBreak]

theorem skipGap_word (allowed : Bool) (hgap : isGap c = false) (hcomment : c ≠ '#')
    (s : List Char) : skipGap false allowed false (c :: s) = (allowed, c :: s) := by
  have hspace : c ≠ ' ' := ne_of_not_isGap hgap rfl
  have htab : c ≠ '\t' := ne_of_not_isGap hgap rfl
  rw [skipGap]
  simp [hspace, htab, (isGap_eq_false_iff.mp hgap).2, hcomment]

theorem skipGap_outside (allowed : Bool) (h : Outside margin s) :
    skipGap false allowed false s = (allowed, unindented s) := by
  rcases h with rfl | ⟨k, c, r, -, hc, hcomment, rfl⟩
  · rfl
  · rw [skipGap_spaces, skipGap_word allowed hc hcomment, unindented_append,
      unindented_word (ne_of_not_isGap hc rfl)]

theorem length_skipGap_le (inFlow allowed inComment : Bool) (s : List Char) :
    (skipGap inFlow allowed inComment s).2.length ≤ s.length := by
  fun_induction skipGap inFlow allowed inComment s with
  | case1 => simp
  | case2 _ _ _ _ _ ih => exact Nat.le_succ_of_le ih
  | case3 _ _ _ _ _ _ ih => exact Nat.le_succ_of_le ih
  | case4 _ _ _ _ _ ih => exact Nat.le_succ_of_le ih
  | case5 => simp

/-! ### One step -/

theorem moveTo_append {l : Lexer} (h : l.rest = u ++ t) :
    l.moveTo t = { l with rest := t, position := l.position.past u } := by
  simp [moveTo, h]

theorem toToken_of_skipGap {l : Lexer} (houter : l.outerKeys = []) (hrest : l.rest = u ++ t)
    (hskip : skipGap false l.keyAllowed false (u ++ t) = (allowed, t)) :
    l.toToken = { l with rest := t, position := l.position.past u, keyAllowed := allowed } := by
  have hflow : l.inFlow = false := by simp [inFlow, houter]
  simp only [toToken, hflow, hrest, hskip, moveTo_append hrest, allowKey]

/-- A lexer outside brackets that is at no key. -/
def idle (rest : List Char) (p : Position) (blocks : List Nat) (tokens : List Token)
    (allowed : Bool) : Lexer :=
  ⟨rest, p, tokens.toArray, blocks, none, [], allowed⟩

/-- At the next token, with the blocks ended that are deeper than it. -/
def settled (l : Lexer) : Lexer :=
  l.toToken.closeBlocksIf fun column => l.toToken.position.column < column

theorem settled_of_toToken {l : Lexer} (h : l.toToken = idle t p blocks tokens allowed) :
    l.settled = idle t p (blocks.dropWhile (p.column < ·))
      (tokens ++ (blocks.takeWhile (p.column < ·)).map fun _ => .blockEnd) allowed := by
  simp [settled, h, closeBlocksIf, idle, inFlow]

@[simp] theorem key_closeBlocksIf (l : Lexer) (ends : Nat → Bool) :
    (l.closeBlocksIf ends).key = l.key := by
  unfold closeBlocksIf
  split <;> rfl

@[simp] theorem outerKeys_closeBlocksIf (l : Lexer) (ends : Nat → Bool) :
    (l.closeBlocksIf ends).outerKeys = l.outerKeys := by
  unfold closeBlocksIf
  split <;> rfl

@[simp] theorem rest_closeBlocksIf (l : Lexer) (ends : Nat → Bool) :
    (l.closeBlocksIf ends).rest = l.rest := by
  unfold closeBlocksIf
  split <;> rfl

theorem length_lt_of_settled {l : Lexer} (h : l.settled = idle t p blocks tokens allowed)
    (hs : s.length < t.length) : s.length < l.rest.length := by
  have hrest : t = (skipGap l.inFlow l.keyAllowed false l.rest).2 := by
    rw [show t = l.settled.rest by rw [h]; rfl, settled, rest_closeBlocksIf]
    rfl
  rw [hrest] at hs
  exact Nat.lt_of_lt_of_le hs (length_skipGap_le _ _ _ _)

theorem dropStale_of_none {l : Lexer} (hkey : l.key = none) (houter : l.outerKeys = []) :
    l.dropStale = some l := by
  obtain ⟨⟩ := l
  subst hkey houter
  rfl

theorem next_of_settled {l m : Lexer} (h : l.settled = m) (hkey : m.key = none)
    (houter : m.outerKeys = []) :
    l.next = match m.rest with
      | [] => m.readEnd
      | c :: cs => m.readToken c cs := by
  subst h
  rw [settled, key_closeBlocksIf] at hkey
  rw [settled, outerKeys_closeBlocksIf] at houter
  rw [next, dropStale_of_none hkey houter]
  rfl

theorem next_of_settled_word {l : Lexer} (h : l.settled = idle (c :: s) p blocks tokens allowed) :
    l.next = (idle (c :: s) p blocks tokens allowed).readToken c s :=
  next_of_settled h rfl rfl

/-- Stands before the text `s`, which starts a line: its margin is passed over and ends the blocks
that are deeper. -/
def AtLine (l : Lexer) (s : List Char) (blocks : List Nat) (tokens : List Token) : Prop :=
  ∃ line, l.settled = idle (unindented s) ⟨line, marginOf s⟩ (blocks.dropWhile (marginOf s < ·))
    (tokens ++ (blocks.takeWhile (marginOf s < ·)).map fun _ => .blockEnd) true

theorem AtLine.of_skipGap {l : Lexer} (hl : l = idle (u ++ unindented s) p blocks tokens allowed)
    (hskip : skipGap false allowed false (u ++ unindented s) = (true, unindented s))
    (hcolumn : (p.past u).column = marginOf s) : l.AtLine s blocks tokens := by
  subst hl
  refine ⟨(p.past u).line, ?_⟩
  rw [← hcolumn]
  exact settled_of_toToken (toToken_of_skipGap rfl rfl hskip)

/-- A deeper block counts as ended. -/
theorem AtLine.close {l : Lexer} {b : Nat} (h : l.AtLine s (b :: blocks) tokens)
    (hb : marginOf s < b) : l.AtLine s blocks (tokens ++ [.blockEnd]) := by
  obtain ⟨line, h⟩ := h
  exact ⟨line, by simpa [hb] using h⟩

/-- Steps that each read something and do not end the stream. -/
inductive Reads : Lexer → Lexer → Prop
  | refl (l : Lexer) : Reads l l
  | step {l m n : Lexer} : l.next = some m → m.rest.length < l.rest.length →
      m.tokens.back? ≠ some .streamEnd → Reads m n → Reads l n

theorem Reads.trans {l m n : Lexer} (h : Reads l m) (h' : Reads m n) : Reads l n := by
  induction h with
  | refl => exact h'
  | step hnext hrest hback _ ih => exact .step hnext hrest hback (ih h')

theorem Reads.run_eq {l m : Lexer} {fuel : Nat} (h : Reads l m) (hfuel : l.rest.length < fuel) :
    ∃ left, m.rest.length < left ∧ l.run fuel = m.run left := by
  induction h generalizing fuel with
  | refl => exact ⟨fuel, hfuel, rfl⟩
  | step hnext hrest hback _ ih =>
    cases fuel with
    | zero => exact absurd hfuel (Nat.not_lt_zero _)
    | succ fuel =>
      obtain ⟨left, hleft, hrun⟩ := ih (Nat.lt_of_lt_of_le hrest (Nat.le_of_lt_succ hfuel))
      refine ⟨left, hleft, ?_⟩
      rw [run, hnext, ← hrun]
      simp [hback]

/-! ### Keys -/

theorem readToken_plain {l : Lexer} (houter : l.outerKeys = [])
    (hmarker : l.position.column = 0 → atMarker (c :: s) = false)
    (hplain : startsPlain false (c :: s) = true) : l.readToken c s = l.readPlainScalar := by
  have hflow : l.inFlow = false := by simp [inFlow, houter]
  have hstart := hplain
  rw [startsPlain] at hstart
  split at hstart
  · contradiction
  · next hindicator =>
    simp only [isIndicator, isFlowIndicator, Bool.or_eq_true, beq_iff_eq, not_or] at hindicator
    have hmark : ¬ (l.position.column = 0 ∧ atMarker (c :: s) = true) := by
      rintro ⟨h, hs⟩
      simp [hmarker h] at hs
    have hgap {d : Char} (hd : d = '-' ∨ d = '?' ∨ d = ':') : ¬ (c = d ∧ atGap s = true) := by
      rintro ⟨rfl, hs⟩
      rcases hd with rfl | rfl | rfl <;> simp [hs] at hstart
    have hdash := hgap (.inl rfl)
    have hquestion := hgap (.inr (.inl rfl))
    have hcolon := hgap (.inr (.inr rfl))
    simp [readToken, hflow, hplain, hindicator, hmark, hdash, hquestion, hcolon]

/-- The blocks around a key at this column. -/
def openedAt (column : Nat) (blocks : List Nat) : List Nat :=
  if blocks.head?.all (· < column) then column :: blocks else blocks

/-- The token of the block that a key at this column opens. -/
def opening (column : Nat) (blocks : List Nat) : List Token :=
  if blocks.head?.all (· < column) then [.blockMappingStart] else []

theorem insertIdx_length_append {α : Type} (xs ys : List α) (a : α) :
    (xs ++ ys).insertIdx xs.length a = xs ++ a :: ys := by
  induction xs with
  | nil => rfl
  | cons x xs ih => simpa using ih

theorem dropWhile_deeper {m n : Nat} (h : blocks.head?.all (· ≤ m) = true) (hmn : m ≤ n) :
    blocks.dropWhile (n < ·) = blocks ∧ blocks.takeWhile (n < ·) = [] := by
  cases blocks with
  | nil => exact ⟨rfl, rfl⟩
  | cons b blocks =>
    have hb : ¬ n < b := by
      have : b ≤ m := by simpa using h
      omega
    simp [hb]

/-- A lexer outside brackets that has read what may be a key. -/
def pending (rest : List Char) (p : Position) (blocks : List Nat) (tokens : List Token)
    (k : PendingKey) : Lexer :=
  ⟨rest, p, tokens.toArray, blocks, some k, [], false⟩

theorem readToken_colon {l : Lexer} (houter : l.outerKeys = []) (hs : atGap s = true) :
    l.readToken ':' s = l.readValue := by
  have hmarker : atMarker (':' :: s) = false := atMarker_cons (by decide) (by decide) s
  simp [readToken, inFlow, houter, hmarker, hs]

/-- The colon after a key: the tokens for the key, and for its block, go in front of it. -/
theorem next_pending {k : PendingKey} {token : Token} (hs : atGap s = true)
    (htoken : k.token = tokens.length) (hline : k.start.line = p.line)
    (hcolumn : k.start.column ≤ p.column ∧ p.column ≤ k.start.column + maxKeyLength)
    (hblocks : blocks.head?.all (· ≤ k.start.column) = true) :
    (pending (':' :: s) p blocks (tokens ++ [token]) k).next =
      some (idle s (p.after ':') (openedAt k.start.column blocks)
        (tokens ++ opening k.start.column blocks ++ [.key, token, .value]) false) := by
  have htoToken : (pending (':' :: s) p blocks (tokens ++ [token]) k).toToken =
      pending (':' :: s) p blocks (tokens ++ [token]) k :=
    toToken_of_skipGap (u := []) rfl rfl (skipGap_word false rfl (by decide) s)
  have hfresh : k.isStale p = false := by
    simp [PendingKey.isStale, hline]
    omega
  have hstale : (pending (':' :: s) p blocks (tokens ++ [token]) k).dropStale =
      some (pending (':' :: s) p blocks (tokens ++ [token]) k) := by
    simp [dropStale, pending, dropIf, hfresh]
  obtain ⟨hdrop, htake⟩ := dropWhile_deeper hblocks hcolumn.1
  have hclose : (pending (':' :: s) p blocks (tokens ++ [token]) k).closeBlocksIf
      (fun column => p.column < column) = pending (':' :: s) p blocks (tokens ++ [token]) k := by
    simp [closeBlocksIf, pending, inFlow, hdrop, htake]
  have hread : (pending (':' :: s) p blocks (tokens ++ [token]) k).readToken ':' s =
      some (idle s (p.after ':') (openedAt k.start.column blocks)
        (tokens ++ opening k.start.column blocks ++ [.key, token, .value]) false) := by
    rw [readToken_colon rfl hs]
    have hkey := insertIdx_length_append tokens [token] .key
    have hblock := insertIdx_length_append tokens [.key, token] .blockMappingStart
    simp only [readValue, pending, htoken, List.insertIdxIfInBounds_toArray, hkey, openBlock,
      inFlow]
    unfold openedAt opening
    cases blocks.head?.all (· < k.start.column) with
    | true => simp [hblock, allowKey, skip, moveTo, emit, idle, Position.past]
    | false => simp [allowKey, skip, moveTo, emit, idle, Position.past]
  rw [next, htoToken, hstale]
  simp only [Option.bind_eq_bind, Option.bind_some]
  exact (congrArg (fun l : Lexer => match l.rest with
    | [] => l.readEnd
    | c :: cs => l.readToken c cs) hclose).trans hread

theorem readPlain_name {key : List Char} {indent column : Nat} (h : IsName key)
    (hs : atGap s = true) :
    readPlain false indent column .empty (key ++ ':' :: s) = some ⟨key, false, ':' :: s⟩ := by
  have hmarker (_ : column = 0) : atMarker (key ++ ':' :: s) = false := by
    obtain ⟨c, key, rfl⟩ := List.exists_cons_of_ne_nil h.ne_nil
    exact atMarker_of_isNameChar (h.chars c (by simp)) _
  have hread := readPlain_append indent h.continues (':' :: s) hmarker
  rw [Gap.empty, hread, readPlain_colon _ _ hs]
  simp

theorem readPlainScalar_name {key : String} {line : Nat} (h : IsName key.toList)
    (hs : atGap s = true) :
    (idle (key.toList ++ ':' :: s) ⟨line, margin⟩ blocks tokens true).readPlainScalar =
      some (pending (':' :: s) ⟨line, margin + key.toList.length⟩ blocks
        (tokens ++ [.scalar .plain key])
        ⟨tokens.length, blocks.head? == some margin, ⟨line, margin⟩⟩) := by
  have hbreak : ∀ c ∈ key.toList, isBreak c = false := h.continues.oneLine
  have hpast := Position.past_line hbreak ⟨line, margin⟩
  simp [readPlainScalar, markKey, idle, dropKey, dropIf, inFlow, readPlain_name h hs, allowKey,
    moveTo, pending, emit, hpast]

/-- Two steps past a key and its colon. -/
theorem AtLine.reads_key {l : Lexer} {key : String} (hkey : IsName key.toList)
    (hs : atGap s = true) (hblocks : blocks.head?.all (· ≤ margin) = true)
    (h : l.AtLine (spaces margin ++ key.toList ++ ':' :: s) blocks tokens) :
    ∃ p, margin < p.column ∧ Reads l (idle s p (openedAt margin blocks)
      (tokens ++ opening margin blocks ++ [.key, .scalar .plain key, .value]) false) := by
  obtain ⟨line, h⟩ := h
  obtain ⟨hdrop, htake⟩ := dropWhile_deeper hblocks (Nat.le_refl margin)
  obtain ⟨c, cs, hc⟩ := List.exists_cons_of_ne_nil hkey.ne_nil
  have hname : isNameChar c = true := hkey.chars c (by simp [hc])
  have hspace : c ≠ ' ' := ne_of_isNameChar hname rfl
  have hmargin : marginOf (spaces margin ++ key.toList ++ ':' :: s) = margin := by
    rw [List.append_assoc, marginOf_append, hc, List.cons_append, marginOf_word hspace]
    rfl
  have hrest : unindented (spaces margin ++ key.toList ++ ':' :: s) = key.toList ++ ':' :: s := by
    rw [List.append_assoc, unindented_append, hc, List.cons_append, unindented_word hspace]
  rw [hmargin, hrest, hdrop, htake, List.map_nil, List.append_nil] at h
  have hread : l.next = some (pending (':' :: s) ⟨line, margin + key.toList.length⟩ blocks
      (tokens ++ [.scalar .plain key])
      ⟨tokens.length, blocks.head? == some margin, ⟨line, margin⟩⟩) := by
    rw [← readPlainScalar_name hkey hs]
    rw [hc, List.cons_append] at h ⊢
    rw [next_of_settled_word h]
    exact readToken_plain rfl (fun _ => atMarker_of_isNameChar hname _)
      (startsPlain_of_isNameChar hname _)
  have hcolon : (pending (':' :: s) ⟨line, margin + key.toList.length⟩ blocks
      (tokens ++ [.scalar .plain key])
      ⟨tokens.length, blocks.head? == some margin, ⟨line, margin⟩⟩).next =
        some (idle s _ _ _ false) :=
    next_pending hs rfl rfl ⟨Nat.le_add_right _ _, Nat.add_le_add_left hkey.length_le _⟩ hblocks
  refine ⟨_, ?_, .step hread ?_ ?_ (.step hcolon ?_ ?_ (.refl _))⟩
  · exact Nat.lt_succ_of_le (Nat.le_add_right margin key.toList.length)
  · refine length_lt_of_settled h ?_
    simp only [pending, hc, List.cons_append, List.length_cons, List.length_append]
    omega
  · simp [pending]
  · exact Nat.lt_succ_self _
  · simp [idle]

/-! ### Values -/

theorem emit_moveTo_idle (allowed b : Bool) (token : Token) :
    (((idle (u ++ t) p blocks tokens allowed).allowKey b).moveTo t).emit token =
      idle t (p.past u) blocks (tokens ++ [token]) b := by
  rw [moveTo_append (u := u) rfl]
  simp [allowKey, idle, emit]

/-- What a scalar with its line leaves: the next line, of which the margin may be passed. -/
theorem skipGap_unindented (allowed : Bool) (h : Outside margin r) :
    skipGap false allowed false (unindented r) = (allowed, unindented r) := by
  rw [← skipGap_spaces allowed (marginOf r), spaces_marginOf_append]
  exact skipGap_outside allowed h

theorem column_past_margin (p : Position) (s : List Char) (n : Nat) :
    (p.past (s ++ '\n' :: spaces n)).column = n := by
  have hspaces := Position.past_line (s := spaces n) fun _ => isBreak_of_mem_spaces
  rw [← List.singleton_append, ← List.append_assoc, Position.past_append, hspaces,
    Position.column_past_break p s rfl]
  simp [spaces]

theorem atLine_newline (hr : Outside margin r) (p : Position) (blocks : List Nat)
    (tokens : List Token) (allowed : Bool) :
    (idle ('\n' :: r) p blocks tokens allowed).AtLine r blocks tokens := by
  have hsplit : '\n' :: r = '\n' :: spaces (marginOf r) ++ unindented r := by
    rw [List.cons_append, spaces_marginOf_append]
  refine .of_skipGap (u := '\n' :: spaces (marginOf r)) (by rw [hsplit]) ?_
    (column_past_margin p [] _)
  rw [List.cons_append, skipGap_newline, skipGap_spaces]
  exact skipGap_unindented true hr

theorem atLine_fresh (hr : Outside margin r) (hp : p.column = 0) (blocks : List Nat)
    (tokens : List Token) : (idle r p blocks tokens true).AtLine r blocks tokens := by
  refine .of_skipGap (u := spaces (marginOf r)) (by rw [spaces_marginOf_append]) ?_ ?_
  · rw [skipGap_spaces]
    exact skipGap_unindented true hr
  · rw [Position.past_line fun _ => isBreak_of_mem_spaces, hp]
    simp [spaces]

theorem atLine_indented (hr : Outside margin r) (hp : p.column = marginOf r) (blocks : List Nat)
    (tokens : List Token) : (idle (unindented r) p blocks tokens true).AtLine r blocks tokens :=
  .of_skipGap (u := []) rfl (skipGap_unindented true hr) hp

/-- The step from `l` to `m` read the last token of a line, and the next line is `r`. -/
structure EndsLine (l m : Lexer) (token : Token) (r : List Char) (blocks : List Nat)
    (tokens : List Token) : Prop where
  shorter : m.rest.length < l.rest.length
  last : m.tokens.back? = some token
  atLine : m.AtLine r blocks (tokens ++ [token])

theorem EndsLine.of_idle {token : Token} (hu : u ≠ []) (a : Bool)
    (h : (idle t (p.past u) blocks (tokens ++ [token]) allowed).AtLine r blocks
      (tokens ++ [token])) :
    EndsLine (idle (u ++ t) p blocks tokens a)
      (idle t (p.past u) blocks (tokens ++ [token]) allowed) token r blocks tokens := by
  refine ⟨?_, by simp [idle], h⟩
  have := List.length_pos_iff.mpr hu
  simp only [idle, List.length_append]
  omega

section

variable (hr : Outside (margin + 1) r) (hp : 0 < p.column) (hhead : blocks.head? = some margin)

include hr hp hhead in
theorem readToken_plainValue {text : String} (hkeeps : Style.plain.Keeps text.toList)
    (hs : writeScalar (margin + indentStep) .plain text.toList ++ r = c :: s) :
    ∃ l, (idle (c :: s) p blocks tokens false).readToken c s = some l ∧
      EndsLine (idle (c :: s) p blocks tokens false) l (.scalar .plain text) r blocks tokens := by
  obtain ⟨hprint, hbreak, hfits⟩ := hkeeps
  rw [List.all_eq_true] at hprint
  simp only [List.any_eq_false, Bool.not_eq_true] at hbreak
  have hplain : startsPlain false (c :: s) = true := by
    rw [← hs]
    have : startsPlain false text.toList = true := by
      simp only [fitsPlain, Bool.and_eq_true] at hfits
      exact hfits.1.1.1.1
    rw [writeScalar, List.append_assoc]
    exact startsPlain_append this _
  have hread : readPlain false (margin + 1) p.column .empty (c :: s) =
      some ⟨text.toList, true, unindented r⟩ := by
    have hmarker (h : p.column = 0) : atMarker (text.toList ++ '\n' :: r) = false := by omega
    have happend := readPlain_append (margin + 1) (continues_of_fitsPlain hprint hbreak hfits)
      ('\n' :: r) hmarker
    rw [← hs, writeScalar, List.append_assoc, List.singleton_append, Gap.empty, happend,
      readPlain_newline _ hr]
    simp
  have hsplit : c :: s = (text.toList ++ '\n' :: spaces (marginOf r)) ++ unindented r := by
    rw [← hs, writeScalar]
    simp [spaces_marginOf_append]
  have hlexer : (idle (c :: s) p blocks tokens false).readPlainScalar =
      some (idle (unindented r) (p.past (text.toList ++ '\n' :: spaces (marginOf r))) blocks
        (tokens ++ [.scalar .plain text]) true) := by
    rw [← emit_moveTo_idle false, ← hsplit]
    simp [readPlainScalar, idle, markKey, inFlow, hhead, hread]
  rw [readToken_plain rfl (fun h => by simp only [idle] at h; omega) hplain]
  refine ⟨_, hlexer, ?_⟩
  rw [hsplit]
  exact .of_idle (by simp) false (atLine_indented hr (column_past_margin _ _ _) _ _)

theorem readToken_single {l : Lexer} (houter : l.outerKeys = []) (s : List Char) :
    l.readToken '\'' s = l.readNode (readQuoted true) := by
  have hmarker : atMarker ('\'' :: s) = false := atMarker_cons (by decide) (by decide) s
  simp [readToken, inFlow, houter, hmarker]

theorem readToken_double {l : Lexer} (houter : l.outerKeys = []) (s : List Char) :
    l.readToken '"' s = l.readNode (readQuoted false) := by
  have hmarker : atMarker ('"' :: s) = false := atMarker_cons (by decide) (by decide) s
  simp [readToken, inFlow, houter, hmarker]

theorem readToken_bar {l : Lexer} (houter : l.outerKeys = []) (s : List Char) :
    l.readToken '|' s = l.readBlockScalar false := by
  have hmarker : atMarker ('|' :: s) = false := atMarker_cons (by decide) (by decide) s
  simp [readToken, inFlow, houter, hmarker]

include hr in
theorem readNode_quotedValue {token : Token} {single : Bool} (hu : u ≠ [])
    (hread : readQuoted single (u ++ '\n' :: r) = some (token, '\n' :: r)) :
    ∃ l, (idle (u ++ '\n' :: r) p blocks tokens false).readNode (readQuoted single) = some l ∧
      EndsLine (idle (u ++ '\n' :: r) p blocks tokens false) l token r blocks tokens := by
  have hlexer : (idle (u ++ '\n' :: r) p blocks tokens false).readNode (readQuoted single) =
      some ((((idle (u ++ '\n' :: r) p blocks tokens false).allowKey false).moveTo
        ('\n' :: r)).emit token) := by
    simp [readNode, idle, markKey, hread]
  rw [hlexer, emit_moveTo_idle]
  exact ⟨_, rfl, .of_idle hu false (atLine_newline hr _ _ _ _)⟩

include hr in
theorem readToken_singleValue {text : String} (hkeeps : Style.singleQuoted.Keeps text.toList)
    (hs : writeScalar (margin + indentStep) .singleQuoted text.toList ++ r = c :: s) :
    ∃ l, (idle (c :: s) p blocks tokens false).readToken c s = some l ∧
      EndsLine (idle (c :: s) p blocks tokens false) l (.scalar .singleQuoted text) r blocks
        tokens := by
  have hmargin : 0 < margin + indentStep := Nat.lt_of_lt_of_le (by decide) (Nat.le_add_left _ _)
  have hread := readSingle_writeSingle (c := '\n') hmargin (by decide) hkeeps r
  have hdrop : (writeSingle (margin + indentStep) text.toList ++ '\n' :: r).drop 1 =
      (writeSingle (margin + indentStep) text.toList).drop 1 ++ '\n' :: r := rfl
  rw [writeScalar, List.append_assoc, List.singleton_append] at hs
  obtain ⟨rfl, -⟩ : '\'' = c ∧ _ := List.cons.inj hs
  rw [← hs, readToken_single rfl]
  refine readNode_quotedValue hr (List.cons_ne_nil _ _) ?_
  simp only [readQuoted, hdrop, hread, if_true, Option.bind_eq_bind, Option.bind_some,
    String.ofList_toList, Option.pure_def]

include hr in
theorem readToken_doubleValue {text : String}
    (hs : writeScalar (margin + indentStep) .doubleQuoted text.toList ++ r = c :: s) :
    ∃ l, (idle (c :: s) p blocks tokens false).readToken c s = some l ∧
      EndsLine (idle (c :: s) p blocks tokens false) l (.scalar .doubleQuoted text) r blocks
        tokens := by
  have hread := readDouble_writeDouble text.toList ('\n' :: r)
  have hdrop : (writeDouble text.toList ++ '\n' :: r).drop 1 =
      (writeDouble text.toList).drop 1 ++ '\n' :: r := rfl
  rw [writeScalar, List.append_assoc, List.singleton_append] at hs
  obtain ⟨rfl, -⟩ : '"' = c ∧ _ := List.cons.inj hs
  rw [← hs, readToken_double rfl]
  refine readNode_quotedValue hr (List.cons_ne_nil _ _) ?_
  simp only [readQuoted, hdrop, hread, Bool.false_eq_true, if_false, Option.bind_eq_bind,
    Option.bind_some, String.ofList_toList, Option.pure_def]

theorem exists_break_closed (margin : Nat) (s : List Char) :
    ∃ t b, isBreak b = true ∧ literalBody margin true (closed s) = t ++ [b] := by
  have hends := endsInBreak_closed s
  rcases eq_nil_or_append_singleton (closed s) with hnil | ⟨t, b, hclosed⟩
  · rw [hnil] at hends
    contradiction
  · rw [hclosed, endsInBreak_concat] at hends
    exact ⟨_, b, hends, by rw [hclosed, literalBody_concat hends]⟩

include hr hhead in
theorem readToken_literalValue {text : String} (hkeeps : Style.literal.Keeps text.toList)
    (hs : writeScalar (margin + indentStep) .literal text.toList ++ r = c :: s) :
    ∃ l, (idle (c :: s) p blocks tokens false).readToken c s = some l ∧
      EndsLine (idle (c :: s) p blocks tokens false) l (.scalar .literal text) r blocks tokens := by
  have htab (h : text.toList.head? = some '\t') : False :=
    absurd (List.all_eq_true.mp hkeeps.2 _ (List.mem_of_mem_head? h)) (by decide)
  have hread := readBlock_writeLiteral (m := margin) (List.isEmpty_eq_false_iff.mp hkeeps.1) htab
    (hr.mono (by simp [indentStep]))
  obtain ⟨t, b, hb, hbody⟩ := exists_break_closed (margin + indentStep) text.toList
  have hsplit : writeScalar (margin + indentStep) .literal text.toList =
      literalHeader text.toList ++ t ++ [b] := by
    rw [List.append_assoc, ← hbody, literalBody_closed, ← List.append_assoc]
    rfl
  obtain ⟨rfl, -⟩ : '|' = c ∧ _ := List.cons.inj hs
  rw [← hs, readToken_bar rfl]
  have hlexer : (idle (writeScalar (margin + indentStep) .literal text.toList ++ r) p blocks tokens
      false).readBlockScalar false = some ((((idle (writeScalar (margin + indentStep) .literal
        text.toList ++ r) p blocks tokens false).allowKey true).moveTo r).emit
          (.scalar .literal text)) := by
    have hdrop : (writeScalar (margin + indentStep) .literal text.toList ++ r).drop 1 =
        (writeLiteral (margin + indentStep) text.toList).drop 1 ++
          (if endsInBreak text.toList then [] else ['\n']) ++ r := rfl
    simp only [readBlockScalar, idle, dropKey, dropIf, hhead, hdrop, hread, Option.bind_eq_bind,
      Option.bind_some, String.ofList_toList, Option.pure_def, Bool.false_eq_true, if_false]
  rw [hlexer, emit_moveTo_idle]
  have hne : writeScalar (margin + indentStep) .literal text.toList ≠ [] := by simp [hsplit]
  refine ⟨_, rfl, .of_idle hne false (atLine_fresh hr ?_ _ _)⟩
  rw [hsplit]
  exact Position.column_past_break _ _ hb

include hr hp hhead in
theorem readToken_value (tokens : List Token) {text : String} {style : Style}
    (hkeeps : style.Keeps text.toList)
    (hs : writeScalar (margin + indentStep) style text.toList ++ r = c :: s) :
    ∃ l, (idle (c :: s) p blocks tokens false).readToken c s = some l ∧
      EndsLine (idle (c :: s) p blocks tokens false) l (.scalar style text) r blocks tokens := by
  cases style with
  | plain => exact readToken_plainValue hr hp hhead hkeeps hs
  | singleQuoted => exact readToken_singleValue hr hkeeps hs
  | doubleQuoted => exact readToken_doubleValue hr hs
  | literal => exact readToken_literalValue hr hhead hkeeps hs
  | folded => exact absurd hkeeps id

end

/-- What is written is no gap and no comment at its start. -/
theorem exists_written {style : Style} (hkeeps : style.Keeps s) (margin : Nat) :
    ∃ c t, writeScalar margin style s = c :: t ∧ isGap c = false ∧ c ≠ '#' := by
  cases style with
  | plain =>
    have hstart : startsPlain false s = true := by
      have := hkeeps.2.2
      simp only [fitsPlain, Bool.and_eq_true] at this
      exact this.1.1.1.1
    cases s with
    | nil => exact absurd hstart Bool.false_ne_true
    | cons c s =>
      rw [startsPlain] at hstart
      split at hstart
      · contradiction
      · next hc =>
        simp only [Bool.or_eq_true, not_or, Bool.not_eq_true] at hc
        refine ⟨c, s ++ ['\n'], rfl, hc.1, ?_⟩
        rintro rfl
        exact absurd hc.2 (by decide)
  | singleQuoted => exact ⟨_, _, rfl, rfl, by decide⟩
  | doubleQuoted => exact ⟨_, _, rfl, rfl, by decide⟩
  | literal => exact ⟨_, _, rfl, rfl, by decide⟩
  | folded => exact absurd hkeeps id

/-- One step from the space before a value to the next line. -/
theorem reads_value {text : String} {style : Style} (hkeeps : style.Keeps text.toList)
    (hr : Outside (margin + 1) r) (hp : margin < p.column) (hhead : blocks.head? = some margin) :
    ∃ l, Reads (idle (' ' :: (writeScalar (margin + indentStep) style text.toList ++ r)) p blocks
        tokens false) l ∧ l.AtLine r blocks (tokens ++ [.scalar style text]) := by
  obtain ⟨c, t, hwritten, hgap, hcomment⟩ := exists_written hkeeps (margin + indentStep)
  have hcolumn : (p.after ' ').column = p.column + 1 := rfl
  have hblocks : blocks.head?.all (· ≤ margin) = true := by simp [hhead]
  obtain ⟨hdrop, htake⟩ := dropWhile_deeper hblocks (Nat.le_succ_of_le (Nat.le_of_lt hp))
  have hskip : skipGap false false false ([' '] ++ (c :: (t ++ r))) = (false, c :: (t ++ r)) := by
    have := skipGap_spaces false 1 (c :: (t ++ r))
    rw [skipGap_word false hgap hcomment] at this
    exact this
  have hsettled : (idle (' ' :: (c :: (t ++ r))) p blocks tokens false).settled =
      idle (c :: (t ++ r)) (p.after ' ') blocks tokens false := by
    have htoToken : (idle (' ' :: (c :: (t ++ r))) p blocks tokens false).toToken =
        idle (c :: (t ++ r)) (p.after ' ') blocks tokens false :=
      toToken_of_skipGap (u := [' ']) rfl rfl hskip
    rw [settled_of_toToken htoToken, hcolumn, hdrop, htake]
    simp
  obtain ⟨l, hread, hline⟩ := readToken_value (p := p.after ' ') hr
    (by rw [hcolumn]; exact Nat.succ_pos _) hhead tokens hkeeps (c := c) (s := t ++ r)
    (by rw [hwritten]; rfl)
  have hnext := next_of_settled_word hsettled
  rw [hread] at hnext
  rw [hwritten, List.cons_append]
  refine ⟨l, .step hnext (Nat.lt_succ_of_lt hline.shorter) ?_ (.refl l), hline.atLine⟩
  rw [hline.last]
  simp

/-! ### Mappings -/

theorem head?_openedAt (h : blocks.head?.all (· ≤ margin) = true) :
    (openedAt margin blocks).head? = some margin := by
  unfold openedAt
  split
  · rfl
  · next hdeep =>
    cases blocks with
    | nil => exact absurd rfl hdeep
    | cons b blocks =>
      simp only [List.head?_cons, Option.all_some, decide_eq_true_eq] at h hdeep
      simp only [List.head?_cons, Option.some.injEq]
      omega

theorem openedAt_self (h : blocks.head? = some margin) :
    openedAt margin blocks = blocks ∧ opening margin blocks = [] := by
  simp [openedAt, opening, h]

theorem openedAt_deeper {n : Nat} (h : blocks.head? = some margin) (hn : margin < n) :
    openedAt n blocks = n :: blocks ∧ opening n blocks = [.blockMappingStart] := by
  simp [openedAt, opening, h, hn]

theorem marginOf_lt (h : Outside (margin + 1) s) : marginOf s < margin + 1 := by
  rcases h with rfl | ⟨k, c, r, hk, hc, -, rfl⟩
  · exact Nat.succ_pos _
  · rwa [marginOf_append, marginOf_word (ne_of_not_isGap hc rfl)]

/-- The steps for the fields of a mapping from one of them on: its block is open when they are
read, whether it was before or the first key opens it. -/
theorem reads_outline {f : Outline} (hf : f.Fits) {l : Lexer} (hr : Outside margin r)
    (hblocks : blocks.head?.all (· ≤ margin) = true) (hnil : f = .nil → blocks.head? = some margin)
    (h : l.AtLine (f.text margin ++ r) blocks tokens) :
    ∃ m, Reads l m ∧
      m.AtLine r (openedAt margin blocks) (tokens ++ opening margin blocks ++ f.tokens) := by
  induction f generalizing l margin r blocks tokens with
  | nil =>
    obtain ⟨hopen, hopening⟩ := openedAt_self (hnil rfl)
    rw [hopen, hopening]
    exact ⟨l, .refl l, by simpa [Outline.text, Outline.tokens] using h⟩
  | scalar key style value rest ih =>
    obtain ⟨hkey, hkeeps, hrest⟩ := hf
    have hhead := head?_openedAt hblocks
    have hself := openedAt_self hhead
    simp only [Outline.text, List.append_assoc, List.cons_append] at h
    rw [← List.append_assoc] at h
    obtain ⟨p, hp, hread⟩ := h.reads_key hkey rfl hblocks
    obtain ⟨l₁, hread₁, h₁⟩ := reads_value hkeeps (Outline.outside_text hrest hr) hp hhead
    obtain ⟨l₂, hread₂, h₂⟩ := ih hrest hr (by simp [hhead]) (fun _ => hhead) h₁
    refine ⟨l₂, hread.trans (hread₁.trans hread₂), ?_⟩
    rw [hself.1, hself.2] at h₂
    simpa [Outline.tokens] using h₂
  | mapping key inner rest ihi ihr =>
    obtain ⟨hkey, hne, hinner, hrest⟩ := hf
    have hhead := head?_openedAt hblocks
    have hself := openedAt_self hhead
    have houtside := Outline.outside_text hrest hr
    have hdeep := openedAt_deeper hhead (Nat.lt_add_of_pos_right (by decide : 0 < indentStep))
    simp only [Outline.text, List.append_assoc, List.cons_append] at h
    rw [← List.append_assoc] at h
    obtain ⟨p, hp, hread⟩ := h.reads_key hkey rfl hblocks
    have hline := atLine_newline (Outline.outside_text hinner (houtside.mono (by
      simp [indentStep] : margin + 1 ≤ margin + indentStep))) p (openedAt margin blocks)
      (tokens ++ opening margin blocks ++ [.key, .scalar .plain key, .value]) false
    obtain ⟨l₁, hread₁, h₁⟩ := ihi hinner (houtside.mono (by simp [indentStep]))
      (by simp [hhead]) (fun h => absurd h hne) hline
    rw [hdeep.1, hdeep.2] at h₁
    have hclosed := h₁.close (Nat.lt_of_lt_of_le (marginOf_lt houtside) (by simp [indentStep]))
    obtain ⟨l₂, hread₂, h₂⟩ := ihr hrest hr (by simp [hhead]) (fun _ => hhead) hclosed
    refine ⟨l₂, hread.trans (hread₁.trans hread₂), ?_⟩
    rw [hself.1, hself.2] at h₂
    simpa [Outline.tokens] using h₂

end Lexer

/-! ### The stream -/

theorem isAllowed_of_isPrintable (h : isPrintable c = true) : isAllowed c = true := by
  simp only [isPrintable, isAllowed, Bool.or_eq_true, Bool.and_eq_true, beq_iff_eq,
    decide_eq_true_eq, bne_iff_ne] at h ⊢
  omega

theorem ne_of_isPrintable {d : Char} (h : isPrintable c = true) (hd : isPrintable d = false) :
    c ≠ d := by
  rintro rfl
  simp [h] at hd

/-- The tokens of a written outline are those it stands for. -/
theorem tokens_text {f : Outline} (hf : f.Fits) (hne : f ≠ .nil) :
    Yaml.tokens (f.text 0) = .blockMappingStart :: f.tokens ++ [.blockEnd, .streamEnd] := by
  have hprint := Outline.isPrintable_text hf 0
  have hallowed : (f.text 0).all isAllowed = true :=
    List.all_eq_true.mpr fun c hc => isAllowed_of_isPrintable (hprint c hc)
  have hunify : unifyBreaks (f.text 0) = f.text 0 := unifyBreaks_of_plain fun c hc =>
    ⟨ne_of_isPrintable (hprint c hc) (by decide), ne_of_isPrintable (hprint c hc) (by decide)⟩
  have hstart : Lexer.start (f.text 0) = Lexer.idle (f.text 0) ⟨0, 0⟩ [] [] true := by
    unfold Lexer.start
    split
    · next c hmark =>
      exact absurd (hprint '\uFEFF' (by rw [hmark]; simp)) (by decide)
    · rfl
  have houtside : Outside 1 (f.text 0) := by
    simpa using Outline.outside_text hf (s := []) (.inl rfl)
  have hline : (Lexer.idle (f.text 0) ⟨0, 0⟩ [] [] true).AtLine (f.text 0 ++ []) [] [] := by
    rw [List.append_nil]
    exact Lexer.atLine_fresh houtside rfl [] []
  obtain ⟨l, hreads, h⟩ := Lexer.reads_outline hf (.inl rfl) rfl (fun h => absurd h hne) hline
  obtain ⟨fuel, hfuel, hrun⟩ := hreads.run_eq (Nat.lt_succ_self _)
  obtain ⟨line, hsettled⟩ := h
  have hempty : l.settled = .idle [] ⟨line, 0⟩ [0] (.blockMappingStart :: f.tokens) true := by
    rw [hsettled]
    simp [Lexer.openedAt, Lexer.opening, marginOf, unindented]
  have hend : l.next = (Lexer.idle [] ⟨line, 0⟩ [0] (.blockMappingStart :: f.tokens)
      true).readEnd := Lexer.next_of_settled hempty rfl rfl
  have hlast : (Token.blockMappingStart :: (f.tokens ++ [.blockEnd, .streamEnd])).getLast? =
      some .streamEnd := by
    rw [← List.cons_append, List.getLast?_append]
    rfl
  rw [Yaml.tokens, if_pos hallowed, hunify, hstart]
  refine hrun.trans ?_
  cases fuel with
  | zero => exact absurd hfuel (Nat.not_lt_zero _)
  | succ fuel =>
    rw [Lexer.run, hend]
    simp [Lexer.readEnd, Lexer.closeBlocks, Lexer.closeBlocksIf, Lexer.inFlow, Lexer.idle,
      Lexer.dropKey, Lexer.dropIf, Lexer.allowKey, Lexer.emit, hlast]

end ProgramAnalysis.Yaml
