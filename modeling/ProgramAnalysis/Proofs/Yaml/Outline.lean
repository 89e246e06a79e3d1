import ProgramAnalysis.Proofs.Yaml.Plain
import ProgramAnalysis.Yaml.Document
import ProgramAnalysis.Yaml.Outline

/-! Outlines of mappings stand for a text, for its tokens, for its events and for the items of a
document; that reading leads from the first to the last is shown elsewhere. -/
namespace ProgramAnalysis.Yaml

/-- The texts that come back from a style. -/
def Style.Keeps (s : List Char) : Style → Prop
  | .plain => s.all isPrintable = true ∧ s.any isBreak = false ∧ fitsPlain s = true
  | .singleQuoted => fitsSingle s = true
  | .doubleQuoted => True
  | .literal => s.isEmpty = false ∧ s.all isPrintable = true
  | .folded => False

theorem keeps_styleOf (s : String) : (styleOf s).Keeps s.toList := by
  simp only [styleOf]
  split
  · next hline =>
    split
    · next hfits =>
      simp only [fitsLiteral, Bool.and_eq_true] at hfits
      refine ⟨List.isEmpty_eq_false_iff.mpr fun hnil => ?_, hfits.1.1⟩
      simp [hnil] at hline
    · trivial
  · split
    · next hplain =>
      simp only [Bool.and_eq_true, Bool.not_eq_true'] at hplain
      exact ⟨hplain.1.1.2, hplain.1.2, hplain.2⟩
    · split
      · next hfits => exact hfits
      · trivial

/-- What is written plainly stands for its text, and neither for nothing nor for a number. -/
theorem isText_of_styleOf {s : String} (h : styleOf s = .plain) : isText s = true := by
  simp only [styleOf] at h
  split at h
  · split at h <;> contradiction
  · split at h
    · next hplain =>
      simp only [Bool.and_eq_true] at hplain
      exact hplain.1.1.1
    · split at h <;> contradiction

def isNameChar (c : Char) : Bool := c.isLower || c.isDigit || c == '_'

/-- What a key looks like in what is written. -/
structure IsName (key : List Char) : Prop where
  nonempty : key.isEmpty = false
  length_le : key.length ≤ maxKeyLength
  all : key.all isNameChar = true

theorem IsName.ne_nil {key : List Char} (h : IsName key) : key ≠ [] :=
  List.isEmpty_eq_false_iff.mp h.nonempty

theorem IsName.chars {key : List Char} (h : IsName key) : ∀ c ∈ key, isNameChar c = true :=
  List.all_eq_true.mp h.all

namespace Outline

def tokens : Outline → List Token
  | nil => []
  | scalar key style value rest =>
    .key :: .scalar .plain key :: .value :: .scalar style value :: rest.tokens
  | mapping key inner rest =>
    .key :: .scalar .plain key :: .value :: .blockMappingStart ::
      (inner.tokens ++ .blockEnd :: rest.tokens)

def events : Outline → List Event
  | nil => []
  | scalar key style value rest =>
    .scalar none none .plain key :: .scalar none none style value :: rest.events
  | mapping key inner rest =>
    .scalar none none .plain key :: .mappingStart none none ::
      (inner.events ++ .mappingEnd :: rest.events)

def items : Outline → List Item
  | nil => []
  | scalar key style value rest =>
    .scalar none .plain key :: .scalar none style value :: rest.items
  | mapping key inner rest =>
    .scalar none .plain key :: .mappingStart none :: (inner.items ++ .mappingEnd :: rest.items)

/-- Every key is a name, every text fits its style, and no nested mapping is empty, which would be
read as nothing. -/
def Fits : Outline → Prop
  | nil => True
  | scalar key style value rest => IsName key.toList ∧ style.Keeps value.toList ∧ rest.Fits
  | mapping key inner rest => IsName key.toList ∧ inner ≠ nil ∧ inner.Fits ∧ rest.Fits

end Outline

/-! ### Characters -/

variable {c : Char}

theorem ne_of_isNameChar {d : Char} (hc : isNameChar c = true) (hd : isNameChar d = false) :
    c ≠ d := by
  rintro rfl
  exact absurd hc (by simp [hd])

theorem isPrintable_of_isNameChar (h : isNameChar c = true) : isPrintable c = true := by
  simp only [isNameChar, Bool.or_eq_true, beq_iff_eq] at h
  rcases h with (hlower | hdigit) | rfl
  · obtain ⟨hlow, hhigh⟩ := Bool.and_eq_true_iff.mp hlower
    have hlow : 97 ≤ c.toNat := UInt32.le_iff_toNat_le.mp (of_decide_eq_true hlow)
    have hhigh : c.toNat ≤ 122 := UInt32.le_iff_toNat_le.mp (of_decide_eq_true hhigh)
    simp only [isPrintable, Bool.or_eq_true, Bool.and_eq_true, decide_eq_true_eq]
    omega
  · obtain ⟨hlow, hhigh⟩ := Bool.and_eq_true_iff.mp hdigit
    have hlow : 48 ≤ c.toNat := UInt32.le_iff_toNat_le.mp (of_decide_eq_true hlow)
    have hhigh : c.toNat ≤ 57 := UInt32.le_iff_toNat_le.mp (of_decide_eq_true hhigh)
    simp only [isPrintable, Bool.or_eq_true, Bool.and_eq_true, decide_eq_true_eq]
    omega
  · decide

theorem isPrintable_writeScalar {margin : Nat} {style : Style} {s : List Char} (h : style.Keeps s) :
    ∀ c ∈ writeScalar margin style s, isPrintable c = true := by
  have hline : ∀ c ∈ ['\n'], isPrintable c = true := List.all_eq_true.mp rfl
  cases style with
  | plain => exact List.forall_mem_append.mpr ⟨List.all_eq_true.mp h.1, hline⟩
  | singleQuoted =>
    have hs : ∀ c ∈ s, isPrintable c = true := by
      simp only [Style.Keeps, fitsSingle, Bool.and_eq_true, List.all_eq_true] at h
      exact h.1.1
    exact List.forall_mem_append.mpr ⟨isPrintable_writeSingle hs, hline⟩
  | doubleQuoted => exact List.forall_mem_append.mpr ⟨isPrintable_writeDouble s, hline⟩
  | literal =>
    refine List.forall_mem_append.mpr ⟨isPrintable_writeLiteral (List.all_eq_true.mp h.2), ?_⟩
    split
    · simp
    · exact hline
  | folded => exact absurd h id

theorem Outline.isPrintable_text {f : Outline} (h : f.Fits) (margin : Nat) :
    ∀ c ∈ f.text margin, isPrintable c = true := by
  have hmargin (n : Nat) : ∀ c ∈ spaces n, isPrintable c = true := fun _ =>
    isPrintable_of_mem_spaces
  have hname {key : List Char} (hkey : IsName key) : ∀ c ∈ key, isPrintable c = true :=
    fun c hc => isPrintable_of_isNameChar (hkey.chars c hc)
  induction f generalizing margin with
  | nil => simp [text]
  | scalar key style value rest ih =>
    obtain ⟨hkey, hkeeps, hrest⟩ := h
    simp only [text, List.forall_mem_append, List.forall_mem_cons]
    exact ⟨⟨⟨hmargin _, hname hkey⟩, rfl, rfl, isPrintable_writeScalar hkeeps⟩, ih hrest margin⟩
  | mapping key inner rest ihi ihr =>
    obtain ⟨hkey, -, hinner, hrest⟩ := h
    simp only [text, List.forall_mem_append, List.forall_mem_cons]
    exact ⟨⟨⟨hmargin _, hname hkey⟩, rfl, rfl, ihi hinner _⟩, ihr hrest margin⟩

/-! ### Lines -/

theorem isGap_of_isNameChar (h : isNameChar c = true) : isGap c = false := by
  rw [Bool.eq_false_iff]
  intro hc
  simp only [isGap, isBlank, isBreak, Bool.or_eq_true, beq_iff_eq, or_assoc] at hc
  rcases hc with rfl | rfl | rfl | rfl | rfl <;> exact absurd h (by decide)

theorem isIndicator_of_isNameChar (h : isNameChar c = true) : isIndicator c = false := by
  rw [Bool.eq_false_iff]
  intro hc
  simp only [isIndicator, isFlowIndicator, Bool.or_eq_true, beq_iff_eq, or_assoc] at hc
  rcases hc with rfl | rfl | rfl | rfl | rfl | rfl | rfl | rfl | rfl | rfl | rfl | rfl | rfl |
    rfl | rfl | rfl <;> exact absurd h (by decide)

theorem atMarker_of_isNameChar (h : isNameChar c = true) (s : List Char) :
    atMarker (c :: s) = false :=
  atMarker_cons (ne_of_isNameChar h rfl) (ne_of_isNameChar h rfl) s

theorem startsPlain_of_isNameChar (h : isNameChar c = true) (s : List Char) :
    startsPlain false (c :: s) = true := by
  rw [startsPlain, isGap_of_isNameChar h, isIndicator_of_isNameChar h]
  simp [ne_of_isNameChar h (by decide : isNameChar '-' = false),
    ne_of_isNameChar h (by decide : isNameChar '?' = false),
    ne_of_isNameChar h (by decide : isNameChar ':' = false)]

theorem anyPair_of_forall {p q : Char → Bool} {s : List Char} (h : ∀ c ∈ s, p c = false) :
    anyPair p q s = false := by
  induction s with
  | nil => rfl
  | cons c s ih => simp [anyPair_cons, h c, ih fun d hd => h d (by simp [hd])]

theorem endsKey_of_forall {s : List Char} (h : ∀ c ∈ s, c ≠ ':') : endsKey s = false := by
  induction s with
  | nil => rfl
  | cons c s ih => simp [endsKey, h c, ih fun d hd => h d (by simp [hd])]

theorem IsName.continues {key : List Char} (h : IsName key) : Continues [] key := by
  have hgap : ∀ c ∈ key, isGap c = false := fun c hc => isGap_of_isNameChar (h.chars c hc)
  refine ⟨fun c hc => isPrintable_of_isNameChar (h.chars c hc),
    fun c hc => (isGap_eq_false_iff.mp (hgap c hc)).2,
    endsKey_of_forall fun c hc => ne_of_isNameChar (h.chars c hc) rfl,
    anyPair_of_forall hgap, fun _ => rfl, fun hlast => ?_, fun _ => rfl⟩
  exact absurd (hgap ' ' (List.mem_of_getLast? hlast)) (by decide)

theorem Outside.mono {k n : Nat} {s : List Char} (h : Outside k s) (hkn : k ≤ n) :
    Outside n s := by
  rcases h with rfl | ⟨i, c, r, hi, hc⟩
  · exact .inl rfl
  · exact .inr ⟨i, c, r, by omega, hc⟩

theorem outside_name {key : List Char} (h : IsName key) (margin : Nat) (s : List Char) :
    Outside (margin + 1) (spaces margin ++ key ++ s) := by
  obtain ⟨c, key, rfl⟩ := List.exists_cons_of_ne_nil h.ne_nil
  have hc := h.chars c (by simp)
  exact .inr ⟨margin, c, key ++ s, Nat.lt_succ_self _, isGap_of_isNameChar hc,
    ne_of_isNameChar hc rfl, by simp⟩

/-- The fields of a mapping start at its margin, and what follows it stands before that. -/
theorem Outline.outside_text {f : Outline} {margin : Nat} {s : List Char} (h : f.Fits)
    (hs : Outside margin s) : Outside (margin + 1) (f.text margin ++ s) := by
  cases f with
  | nil => exact hs.mono (Nat.le_succ _)
  | scalar key style value rest =>
    simp only [text, List.append_assoc]
    rw [← List.append_assoc]
    exact outside_name h.1 margin _
  | mapping key inner rest =>
    simp only [text, List.append_assoc]
    rw [← List.append_assoc]
    exact outside_name h.1 margin _

end ProgramAnalysis.Yaml
