import ProgramAnalysis.Proofs.Text.Digits
import ProgramAnalysis.Proofs.Yaml.Document
import ProgramAnalysis.Yaml.Library

/-! What is relied on when fields are written and read again with a library for YAML, and that the
standard library is one to rely on. The laws say what libraries document: each scalar comes back, and
it is plain only where it still stands for what it is. -/
namespace ProgramAnalysis.Yaml

open Text (isDigit_of_mem_toDigits toDigits_unpadded toList_toString)

/-! ### The laws -/

/-- Fields with scalars, each under a name. -/
def Fields.Flat : Fields → Prop
  | nil => True
  | scalar key _ rest => IsName key.toList ∧ rest.Flat
  | mapping _ _ _ => False

/-- Fields with scalars and with sections of them. No section is empty. -/
def Fields.Sectioned : Fields → Prop
  | nil => True
  | scalar key _ rest => IsName key.toList ∧ rest.Sectioned
  | mapping key inner rest => IsName key.toList ∧ inner ≠ nil ∧ inner.Flat ∧ rest.Sectioned

def Scalar.item (s : Scalar) : Item := .scalar none s.style s.text

/-- The items are those of the fields, in order. Keys may be in any style. -/
inductive Fields.Listed (scalar : Datum → Scalar) : Fields → List Item → Prop
  | nil : Listed scalar .nil []
  | scalar {key value rest items} (style : Style) (tail : Listed scalar rest items) :
      Listed scalar (.scalar key value rest)
        (.scalar none style key :: (scalar value).item :: items)
  | mapping {key inner rest inside items} (style : Style) (head : Listed scalar inner inside)
      (tail : Listed scalar rest items) :
      Listed scalar (.mapping key inner rest)
        (.scalar none style key :: .mappingStart none :: (inside ++ .mappingEnd :: items))

/-- One mapping, and nothing after it. -/
def Document.ofItems (items : List Item) : Document :=
  ⟨(.mappingStart none :: (items ++ [.mappingEnd])).toArray, true⟩

/-- What a library documents of the way in which it writes and reads scalars. -/
structure Library.Documented (y : Library) : Prop where
  /-- What was written is read scalar by scalar, each in the style that it got. -/
  document : ∀ f : Fields, f ≠ .nil → f.Sectioned →
    ∃ items, f.Listed y.scalar items ∧ y.read (y.write f) = .ofItems items
  number_plain : ∀ n, (y.scalar (.number n)).style = .plain
  number? : ∀ n, y.schema.number? (y.scalar (.number n)).text = some n.toNat
  number_isNone : ∀ n, y.schema.isNone (y.scalar (.number n)).text = false
  truth_plain : ∀ b, (y.scalar (.truth b)).style = .plain
  bool? : ∀ b, y.schema.bool? (y.scalar (.truth b)).text = some b
  /-- Quotes, escapes and blocks leave the text as it is. -/
  text : ∀ s, (y.scalar (.text s)).text = s
  /-- Text that would be read as nothing is not plain. -/
  text_isNone : ∀ s, (y.scalar (.text s)).style = .plain → y.schema.isNone s = false

namespace Library.Documented

variable {y : Library}

theorem item_number (hy : y.Documented) (n : UInt32) :
    (y.scalar (.number n)).item = .scalar none .plain (y.scalar (.number n)).text := by
  rw [Scalar.item, hy.number_plain]

theorem item_truth (hy : y.Documented) (b : Bool) :
    (y.scalar (.truth b)).item = .scalar none .plain (y.scalar (.truth b)).text := by
  rw [Scalar.item, hy.truth_plain]

theorem item_text (hy : y.Documented) (s : String) :
    (y.scalar (.text s)).item = .scalar none (y.scalar (.text s)).style s := by
  rw [Scalar.item, hy.text]

end Library.Documented

/-! ### Numbers -/

theorem unsigned?_toDigits (n : Nat) : unsigned? (Nat.toDigits 10 n) = some n := by
  obtain ⟨c, cs, hcs⟩ := List.exists_cons_of_ne_nil
    (Nat.toDigits_ne_nil : Nat.toDigits 10 n ≠ [])
  have hdigit : c.isDigit := isDigit_of_mem_toDigits (hcs ▸ List.mem_cons_self)
  have hsign {signs : List Char} (hsigns : ∀ d ∈ signs, d.isDigit = false) :
      dropSign signs (Nat.toDigits 10 n) = Nat.toDigits 10 n := by
    rw [hcs, dropSign, if_neg]
    intro hc
    exact absurd hdigit (by simp [hsigns c (List.contains_iff_mem.mp hc)])
  have hpadded : isPadded (Nat.toDigits 10 n) = false := by
    rw [isPadded, hsign (by simp)]
    split
    · next h => exact absurd h (toDigits_unpadded n _ _)
    · rfl
  rw [unsigned?, hsign (by simp)]
  unfold magnitude?
  split
  · next h => exact absurd h (toDigits_unpadded n _ _)
  · next h => exact absurd h (toDigits_unpadded n _ _)
  · next h => exact absurd h (toDigits_unpadded n _ _)
  · rw [hpadded, if_neg Bool.false_ne_true, Text.nat?_toDigits]

theorem isNone_digits {s : String} (hne : s.isEmpty = false) (h : ∀ c ∈ s.toList, c.isDigit) :
    Schema.standard.isNone s = false := by
  have hnull : ∀ t ∈ nulls, ¬ ∀ c ∈ t.toList, c.isDigit := by simp [nulls]
  have hcontains : nulls.contains s = false := by
    rw [Bool.eq_false_iff]
    exact fun hs => hnull s (List.contains_iff_mem.mp hs) h
  exact Bool.or_eq_false_iff.mpr ⟨hne, hcontains⟩

/-! ### The standard library -/

theorem keeps_plain {s : List Char} (hne : s ≠ []) (h : ∀ c ∈ s, isNameChar c = true) :
    Style.plain.Keeps s := by
  have hgap : ∀ c ∈ s, isGap c = false := fun c hc => isGap_of_isNameChar (h c hc)
  obtain ⟨c, cs, rfl⟩ := List.exists_cons_of_ne_nil hne
  have hc := h c List.mem_cons_self
  have hmarker : startsMarker (c :: cs) = false := by
    unfold startsMarker
    split
    · next heq =>
      cases heq
      exact absurd hc (by decide)
    · next heq =>
      cases heq
      exact absurd hc (by decide)
    · rfl
  have hends : endsKey (c :: cs) = false :=
    endsKey_of_forall fun d hd => ne_of_isNameChar (h d hd) (by decide)
  have hlast : (c :: cs).getLast? ≠ some ' ' := fun hlast =>
    absurd (h ' ' (List.mem_of_getLast? hlast)) (by decide)
  refine ⟨List.all_eq_true.mpr fun d hd => isPrintable_of_isNameChar (h d hd), ?_, ?_⟩
  · exact List.any_eq_false.mpr fun d hd => by simp [(isGap_eq_false_iff.mp (hgap d hd)).2]
  · simp [fitsPlain, startsPlain_of_isNameChar hc, hmarker, hends, hlast,
      anyPair_of_forall hgap]

theorem isNameChar_of_isDigit {c : Char} (h : c.isDigit) : isNameChar c = true := by
  simp [isNameChar, h]

theorem Datum.keeps_scalar (v : Datum) : v.scalar.style.Keeps v.scalar.text.toList := by
  cases v with
  | number n =>
    show Style.plain.Keeps (toString n.toNat).toList
    rw [toList_toString]
    exact keeps_plain Nat.toDigits_ne_nil fun c hc =>
      isNameChar_of_isDigit (isDigit_of_mem_toDigits hc)
  | truth b =>
    cases b <;> exact ⟨by decide, by decide, by decide⟩
  | text s => exact keeps_styleOf s

namespace Fields

variable {f : Fields}

theorem Flat.outline_fits (h : f.Flat) : f.outline.Fits := by
  induction f with
  | nil => trivial
  | scalar key value rest ih => exact ⟨h.1, value.keeps_scalar, ih h.2⟩
  | mapping key inner rest ihi ihr => exact absurd h id

theorem outline_ne_nil (h : f ≠ nil) : f.outline ≠ .nil := by
  cases f with
  | nil => exact absurd rfl h
  | scalar | mapping => exact nofun

theorem Sectioned.outline_fits (h : f.Sectioned) : f.outline.Fits := by
  induction f with
  | nil => trivial
  | scalar key value rest ih => exact ⟨h.1, value.keeps_scalar, ih h.2⟩
  | mapping key inner rest _ ihr =>
    obtain ⟨hkey, hne, hinner, hrest⟩ := h
    exact ⟨hkey, outline_ne_nil hne, hinner.outline_fits, ihr hrest⟩

theorem listed_outline (f : Fields) : f.Listed Datum.scalar f.outline.items := by
  induction f with
  | nil => exact .nil
  | scalar key value rest ih => exact .scalar .plain ih
  | mapping key inner rest ihi ihr => exact .mapping .plain ihi ihr

end Fields

/-- The standard library writes and reads as is documented of libraries. -/
theorem Library.documented_standard : Library.standard.Documented where
  document f hne hf :=
    ⟨f.outline.items, f.listed_outline,
      Document.ofText_outline hf.outline_fits (Fields.outline_ne_nil hne)⟩
  number_plain _ := rfl
  number? n := by
    show unsigned? (toString n.toNat).toList = some n.toNat
    rw [toList_toString]
    exact unsigned?_toDigits n.toNat
  number_isNone n := by
    show Schema.standard.isNone (toString n.toNat) = false
    refine isNone_digits (by simp) ?_
    rw [toList_toString]
    exact fun _ => isDigit_of_mem_toDigits
  truth_plain _ := rfl
  bool? b := by cases b <;> decide
  text _ := rfl
  text_isNone s hplain := by
    have htext := isText_of_styleOf hplain
    simp only [isText, Bool.not_eq_true', Bool.or_eq_false_iff] at htext
    exact Bool.or_eq_false_iff.mpr htext.1.1.1.1

end ProgramAnalysis.Yaml
