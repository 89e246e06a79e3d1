import Mathlib.Data.List.TakeWhile
import ProgramAnalysis.Config.Yaml
import ProgramAnalysis.Proofs.Text.Split

/-! What is recovered of a problem from its words alone. An unknown field is always told as one, in
its section; but its name ends at the first tick, and where it holds a tick the valid fields are
lost too. A value that is no variant is told from a field unless it spells the words that a field
is recognised by. -/
namespace ProgramAnalysis

open Yaml (Problem)

/-- The records of a file: the file itself and what is in it. -/
inductive ConfigSection where
  | root
  | callGraph
  | pointsTo
  | constants
  | deadCode
deriving DecidableEq, Repr

namespace ConfigSection

def path : ConfigSection → List String
  | .root => []
  | .callGraph => ["call_graph"]
  | .pointsTo => ["pta"]
  | .constants => ["constprop"]
  | .deadCode => ["dead_code"]

def name : ConfigSection → String
  | .root => "<root>"
  | .callGraph => "call_graph"
  | .pointsTo => "pta"
  | .constants => "constprop"
  | .deadCode => "dead_code"

/-- The fields of the section, as they are declared. -/
def fields : ConfigSection → List String
  | .root => ConfigFile.fields
  | .callGraph => ["algorithm", "entry"]
  | .pointsTo => ["heap_model"]
  | .constants => ["inter_procedural"]
  | .deadCode => ["enabled"]

end ConfigSection

/-- The fields that hold one of several variants. -/
inductive ConfigChoice where
  | algorithm
  | heapModel
deriving DecidableEq, Repr

namespace ConfigChoice

def path : ConfigChoice → List String
  | .algorithm => ["call_graph", "algorithm"]
  | .heapModel => ["pta", "heap_model"]

def variants : ConfigChoice → List String
  | .algorithm => CallGraphAlgorithm.all.map CallGraphAlgorithm.key
  | .heapModel => HeapModel.all.map HeapModel.key

end ConfigChoice

/-- A message with the line and the column that it is about, where they are known. -/
def located (message : String) : Option (Nat × Nat) → String
  | none => message
  | some (line, column) => message ++ " at line " ++ toString line ++ " column " ++ toString column

namespace ConfigError

variable {k t : String}

/-- What a message says after its own words. -/
def location (place : Option (Nat × Nat)) : List Char := (located "" place).toList

theorem toList_located (message : String) (place : Option (Nat × Nat)) :
    (located message place).toList = message.toList ++ location place := by
  cases place <;> simp [located, location]

theorem tick_notMem_toDigits (n : Nat) : '\x60' ∉ Nat.toDigits 10 n := fun h =>
  absurd (Nat.isDigit_of_mem_toDigits (by decide) (by decide) h) (by decide)

theorem tick_notMem_location (place : Option (Nat × Nat)) : '\x60' ∉ location place := by
  cases place with
  | none => exact List.not_mem_nil
  | some place =>
    simp [location, located, tick_notMem_toDigits]

/-! ### Unknown fields -/

/-- What follows the name of an unknown field. -/
def expectedFields (s : ConfigSection) : List Char :=
  (", expected " ++ Problem.oneOf s.fields).toList

theorem toList_unknownField (s : ConfigSection) (k : String) :
    (Problem.unknownField s.path k s.fields).message.toList =
      (Problem.place s.path).toList ++ "unknown field `".toList ++
        (k.toList ++ '\x60' :: expectedFields s) := by
  have hwords : "unknown field `".toList = "unknown field ".toList ++ "`".toList := by decide
  have htick : "`".toList = ['\x60'] := by decide
  simp [Problem.message, Problem.ticked, expectedFields, hwords, htick]

/-- The words before the name are not found in its section. -/
theorem cut?_place (s : ConfigSection) :
    Text.cut? "unknown field `".toList
      ((Problem.place s.path).toList ++ "unknown field `".toList) =
        some ((Problem.place s.path).toList, []) := by
  cases s <;> decide

theorem sectionOf_place (s : ConfigSection) : sectionOf (Problem.place s.path).toList = s.name := by
  cases s <;> decide

theorem inTicks_expectedFields (s : ConfigSection) : inTicks (expectedFields s) = s.fields := by
  cases s <;> decide

theorem before_location (s : ConfigSection) (place : Option (Nat × Nat)) :
    Text.before " at line ".toList (expectedFields s ++ location place) = expectedFields s := by
  cases place with
  | none =>
    rw [location, located, String.toList_empty, List.append_nil]
    cases s <;> decide
  | some place =>
    have hcut : Text.cut? " at line ".toList (expectedFields s ++ " at line ".toList) =
        some (expectedFields s, []) := by
      cases s <;> decide
    have hcut' := Text.cut?_append hcut
      ((toString place.1).toList ++ " column ".toList ++ (toString place.2).toList)
    simp only [location, located, String.toList_append, String.toList_empty, List.nil_append,
      List.append_assoc] at hcut' ⊢
    rw [Text.before, hcut']

/-- Where the name ends, the section and what is left to find the valid fields in. -/
theorem ofMessage_unknownField (s : ConfigSection) (place : Option (Nat × Nat))
    {field rest : List Char}
    (hk : k.toList ++ '\x60' :: (expectedFields s ++ location place) = field ++ '\x60' :: rest)
    (hfield : '\x60' ∉ field) :
    ofMessage (located (Problem.unknownField s.path k s.fields).message place) =
      .unknownField (String.ofList field) s.name
        (inTicks (Text.before " at line ".toList rest)) := by
  have hcut : Text.cut? "unknown field `".toList
      (located (Problem.unknownField s.path k s.fields).message place).toList =
        some ((Problem.place s.path).toList, field ++ '\x60' :: rest) := by
    rw [toList_located, toList_unknownField, List.append_assoc, List.append_assoc k.toList,
      List.cons_append, hk]
    exact Text.cut?_append (cut?_place s) _
  rw [ofMessage, hcut]
  simp only [Text.cut?_singleton hfield, sectionOf_place]

theorem ofMessage_unknownField_of_notMem (s : ConfigSection) (place : Option (Nat × Nat))
    (h : '\x60' ∉ k.toList) :
    ofMessage (located (Problem.unknownField s.path k s.fields).message place) =
      .unknownField k s.name s.fields := by
  rw [ofMessage_unknownField s place rfl h, before_location, inTicks_expectedFields,
    String.ofList_toList]

theorem ofMessage_unknownField_of_mem (s : ConfigSection) (place : Option (Nat × Nat))
    (h : '\x60' ∈ k.toList) :
    ∃ valid, ofMessage (located (Problem.unknownField s.path k s.fields).message place) =
      .unknownField (String.ofList (k.toList.takeWhile (· ≠ '\x60'))) s.name valid := by
  obtain ⟨field, rest, hk, hfield⟩ := List.eq_append_cons_of_mem h
  have hsplit : k.toList ++ '\x60' :: (expectedFields s ++ location place) =
      field ++ '\x60' :: (rest ++ '\x60' :: (expectedFields s ++ location place)) := by simp [hk]
  have htake : k.toList.takeWhile (· ≠ '\x60') = field := by
    have hne : ∀ c ∈ field, decide (c ≠ '\x60') = true := fun c hc =>
      decide_eq_true fun heq => hfield (heq ▸ hc)
    rw [hk, List.takeWhile_append_of_pos hne]
    simp
  exact ⟨_, htake ▸ ofMessage_unknownField s place hsplit hfield⟩

/-! ### Unknown variants -/

/-- The words before a bad value. -/
def variantWords (c : ConfigChoice) : List Char :=
  (Problem.place c.path ++ "unknown variant ").toList

/-- What stands before each tick after a bad value. -/
def variantPieces (c : ConfigChoice) : List (List Char) :=
  (", expected " :: c.variants.intersperse " or ").map String.toList

def expectedVariants (c : ConfigChoice) (last : List Char) : List Char :=
  (variantPieces c).foldr (fun p rest => p ++ '\x60' :: rest) last

theorem toList_unknownVariant (c : ConfigChoice) (t : String) (last : List Char) :
    (Problem.unknownVariant c.path t c.variants).message.toList ++ last =
      variantWords c ++ '\x60' :: (t.toList ++ '\x60' :: expectedVariants c last) := by
  have hexpected : ", expected ".toList ++ (Problem.oneOf c.variants).toList ++ last =
      expectedVariants c last := by
    cases c <;> rfl
  have htick : "`".toList = ['\x60'] := by decide
  rw [← hexpected]
  simp [Problem.message, Problem.ticked, variantWords, htick]

/-- The words of an unknown field are in a message about a variant only if its value spells them,
up to its closing tick. -/
theorem infix_unknownVariant_iff (c : ConfigChoice) (place : Option (Nat × Nat)) :
    "unknown field `".toList <:+: (located (Problem.unknownVariant c.path t c.variants).message
      place).toList ↔ "unknown field `".toList <:+: t.toList ++ ['\x60'] := by
  have hwords : "unknown field `".toList = "unknown field ".toList ++ ['\x60'] := by decide
  have htick : '\x60' ∉ "unknown field ".toList := by decide
  rw [toList_located, toList_unknownVariant, hwords]
  constructor
  · intro h
    rcases Text.infix_of_infix_append htick h with h | h
    · exact absurd h (by rw [← Text.cut?_eq_none_iff]; cases c <;> decide)
    · rcases Text.infix_of_infix_append htick h with h | h
      · exact h
      · refine absurd h (Text.not_infix_foldr htick (fun p hp => ?_) (tick_notMem_location place))
        have hpieces : ((variantPieces c).all fun p =>
            (Text.cut? ("unknown field ".toList ++ ['\x60']) (p ++ ['\x60'])).isNone) = true := by
          cases c <;> decide
        exact Text.cut?_eq_none_iff.mp
          (Option.isNone_iff_eq_none.mp (List.all_eq_true.mp hpieces p hp))
  · intro h
    exact h.trans ⟨variantWords c ++ ['\x60'], expectedVariants c (location place), by simp⟩

theorem ofMessage_unknownVariant_iff (c : ConfigChoice) (t : String) (place : Option (Nat × Nat)) :
    ofMessage (located (Problem.unknownVariant c.path t c.variants).message place) =
        .malformed (located (Problem.unknownVariant c.path t c.variants).message place) ↔
      ¬ "unknown field `".toList <:+: t.toList ++ ['\x60'] := by
  constructor
  · -- The words are found, and a tick after them: those around the variants.
    rintro hmessage ⟨u, v, ht⟩
    have hsplit : (located (Problem.unknownVariant c.path t c.variants).message place).toList =
        (variantWords c ++ '\x60' :: u) ++ "unknown field `".toList ++
          (v ++ expectedVariants c (location place)) := by
      have ht' := congrArg (· ++ expectedVariants c (location place)) ht
      simp only [List.append_assoc, List.singleton_append] at ht'
      rw [toList_located, toList_unknownVariant, ← ht']
      simp only [List.append_assoc, List.cons_append]
    cases hcut : Text.cut? "unknown field `".toList
        (located (Problem.unknownVariant c.path t c.variants).message place).toList with
    | none => exact Text.cut?_eq_none_iff.mp hcut ⟨_, _, hsplit.symm⟩
    | some found =>
      obtain ⟨lead, rest⟩ := found
      have htick : '\x60' ∈ rest := by
        refine (Text.suffix_of_cut? (hsplit ▸ hcut)).mem (List.mem_append_right _ ?_)
        exact List.mem_append_right _ List.mem_cons_self
      cases hname : Text.cut? ['\x60'] rest with
      | none =>
        obtain ⟨a, b, rfl⟩ := List.append_of_mem htick
        exact Text.cut?_eq_none_iff.mp hname ⟨a, b, by simp⟩
      | some name =>
        rw [ofMessage, hcut] at hmessage
        simp only [hname] at hmessage
        cases hmessage
  · intro h
    rw [← infix_unknownVariant_iff c place, ← Text.cut?_eq_none_iff] at h
    rw [ofMessage, h]

/-! ### What the words tell -/

/-- An unknown field is always told as one, in its section, by what precedes the first tick of its
name. The name and the valid fields are all there exactly if the name holds no tick; and a bad
value is told from a field exactly if the words for one do not stand in it, up to the tick behind
it. -/
theorem ofMessage_classifies (s : ConfigSection) (c : ConfigChoice) (k t : String)
    (place : Option (Nat × Nat)) :
    (∃ valid, ofMessage (located (Problem.unknownField s.path k s.fields).message place) =
      .unknownField (String.ofList (k.toList.takeWhile (· ≠ '\x60'))) s.name valid) ∧
    (ofMessage (located (Problem.unknownField s.path k s.fields).message place) =
      .unknownField k s.name s.fields ↔ '\x60' ∉ k.toList) ∧
    (ofMessage (located (Problem.unknownVariant c.path t c.variants).message place) =
        .malformed (located (Problem.unknownVariant c.path t c.variants).message place) ↔
      ¬ "unknown field `".toList <:+: t.toList ++ ['\x60']) := by
  refine and_assoc.mp ⟨?_, ofMessage_unknownVariant_iff c t place⟩
  by_cases hk : '\x60' ∈ k.toList
  · obtain ⟨valid, h⟩ := ofMessage_unknownField_of_mem s place hk
    refine ⟨⟨valid, h⟩, fun hwhole => ?_, fun hnot => absurd hk hnot⟩
    rw [h] at hwhole
    have hlead : k.toList.takeWhile (· ≠ '\x60') = k.toList := by
      have hfield := (ConfigError.unknownField.inj hwhole).1
      simpa using congrArg String.toList hfield
    exact absurd (List.mem_takeWhile_imp (hlead.symm ▸ hk)) (by decide)
  · have h := ofMessage_unknownField_of_notMem s place hk
    have hlead : k.toList.takeWhile (· ≠ '\x60') = k.toList :=
      List.takeWhile_eq_self_iff.mpr fun c hc => decide_eq_true fun heq => hk (heq ▸ hc)
    exact ⟨⟨_, by rw [h, hlead, String.ofList_toList]⟩, fun _ => hk, fun _ => h⟩

/-- A name with a tick is cut, and a value that reads like an unknown field is taken for one. -/
theorem ofMessage_misreads :
    ofMessage (located (Problem.unknownField ConfigSection.pointsTo.path "heap`model"
        ConfigSection.pointsTo.fields).message (some (3, 3))) =
      .unknownField "heap" "pta" [", expected ", ""] ∧
    ofMessage (located (Problem.unknownVariant ConfigChoice.heapModel.path "unknown field `x"
        ConfigChoice.heapModel.variants).message (some (3, 15))) =
      .unknownField "x" "pta.heap_model: unknown variant `" ["allocation_site", "type_based"] := by
  decide +kernel

end ConfigError
end ProgramAnalysis
