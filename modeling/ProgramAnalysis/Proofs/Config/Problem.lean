import Mathlib.Data.List.Forall2
import ProgramAnalysis.Proofs.Config.Message
import ProgramAnalysis.Proofs.Except

/-! What a problem with a file says is so: the place is a section or a field of one, and what was
found there is none of what is listed, which is what is declared there. An unknown field is then
answered with its section and all of the section's fields, whatever else the file holds. -/
namespace ProgramAnalysis

open Yaml (Problem Document Item)
open Yaml.Document (Placed)

variable {y : Yaml.Schema} {d : Document} {path : List String} {place : Nat} {α : Type}

/-! ### The problems of a reader -/

namespace Yaml.Document

variable {P : Problem → Prop} {outer names : List String} {text expected : String}

theorem raises_find (hm : P .malformed) : Raises P (d.find place) := by
  unfold find
  split
  · exact .error hm
  · split
    · exact .error hm
    · exact .ok _
  · exact .ok _

theorem raises_readScalar {value? : Option String → Style → String → Option α}
    (hm : P .malformed) (htype : ∀ text expected, P (.wrongType path text expected)) :
    Raises P (d.readScalar path expected value? place) := by
  refine (raises_find hm).bind fun f => ?_
  split
  · split
    · exact .ok _
    · exact .error (htype _ _)
  · exact .error hm

theorem raises_isAbsent {item : Item}
    (hvalue : ∀ text expected, P (.wrongValue outer text expected)) :
    Raises P (isAbsent y outer item) := by
  unfold isAbsent
  split
  · exact .ok _
  · split
    · exact .ok _
    · split
      · exact .ok _
      · split
        · exact .ok _
        · exact .error (hvalue _ _)
  · exact .ok _

theorem raises_readOption {read : Nat → Except Problem (Placed α)} (hm : P .malformed)
    (hvalue : ∀ text expected, P (.wrongValue outer text expected))
    (hread : Raises P (read place)) : Raises P (d.readOption y outer read place) := by
  refine (raises_find hm).bind fun f => (raises_isAbsent hvalue).bind fun b => ?_
  split
  · exact .ok _
  · exact hread.bind fun _ => .ok _

/-- What is looked up may be missing. -/
theorem raises_named {x : Option α} {problem : Problem} (h : x = none → P problem) :
    Raises P (match x with
      | some a => .ok a
      | none => .error problem) := by
  cases x with
  | none => exact .error (h rfl)
  | some a => exact .ok a

theorem raises_readVariant {variants : List α} {key : α → String} (hm : P .malformed)
    (hvariant : ∀ shown, shown = path ∨ shown = outer → ∀ text ∉ variants.map key,
      P (.unknownVariant shown text (variants.map key)))
    (hvalue : ∀ text expected, P (.wrongValue path text expected)) :
    Raises P (d.readVariant y outer path variants key place) := by
  have hmissing {shown : List String} (hshown : shown = path ∨ shown = outer) (name : String)
      (hnone : variants.find? (fun a => key a == name) = none) :
      P (.unknownVariant shown name (variants.map key)) := by
    refine hvariant shown hshown name fun hmem => ?_
    obtain ⟨a, ha, rfl⟩ := List.mem_map.mp hmem
    exact absurd (List.find?_eq_none.mp hnone a ha) (by simp)
  refine (raises_find hm).bind fun f => ?_
  split
  · split
    · exact (raises_named (hmissing (.inl rfl) _)).bind fun _ => .ok _
    · refine (raises_named (hmissing (.inr rfl) _)).bind fun _ => ?_
      split
      · exact .ok _
      · exact .error (hvalue _ _)
  · split
    · exact .error hm
    · exact (raises_named (hmissing (.inr rfl) _)).bind fun _ => .error hm
  · split
    · exact .error hm
    · exact (raises_named (hmissing (.inr rfl) _)).bind fun _ => .error hm
  · exact .error hm

/-- The fields are read each for itself; only a key that is none of their names is a problem of
the record. -/
theorem raises_readFields {read : α → String → List String → Nat → Except Problem (Placed α)}
    (hm : P .malformed) (hfield : ∀ k ∉ names, P (.unknownField path k names))
    (hread : ∀ a place, ∀ name ∈ names, ∀ shown, shown = name ∨ shown = "?" →
      Raises P (read a name (path ++ [shown]) place))
    (fuel : Nat) (seen : List String) (a : α) (place : Nat) :
    Raises P (d.readFields path names read fuel seen a place) := by
  induction fuel generalizing seen a place with
  | zero => exact .error hm
  | succ fuel ih =>
    refine (raises_find hm).bind fun f => ?_
    split
    · exact .ok _
    · next name _ =>
      split
      · next hname => exact .error (hfield name (by simpa using hname))
      · next hname =>
        split
        · exact .error hm
        · refine (hread a _ name (by simpa using hname) _ ?_).bind fun _ => ih _ _ _
          split
          · exact .inr rfl
          · exact .inl rfl
    · exact .error hm

theorem raises_readRecord {read : α → String → List String → Nat → Except Problem (Placed α)}
    {a : α} (hm : P .malformed) (htype : ∀ text expected, P (.wrongType path text expected))
    (hfield : ∀ k ∉ names, P (.unknownField path k names))
    (hread : ∀ a place, ∀ name ∈ names, ∀ shown, shown = name ∨ shown = "?" →
      Raises P (read a name (path ++ [shown]) place)) :
    Raises P (d.readRecord path expected names a read place) := by
  refine (raises_find hm).bind fun f => ?_
  split
  · exact (raises_readFields hm hfield hread _ _ _ _).bind fun _ => .ok _
  · exact .ok _
  · split
    · exact .ok _
    · exact .error (htype _ _)
  · exact .error hm

end Yaml.Document

/-! ### The problems of a file -/

/-- A path as a problem shows it: a key that an alias stands for has no name. -/
def Shows : List String → List String → Prop :=
  List.Forall₂ fun shown key => shown = key ∨ shown = "?"

variable {keys : List String}

theorem Shows.concat {shown key : String} (h : Shows path keys)
    (hshown : shown = key ∨ shown = "?") : Shows (path ++ [shown]) (keys ++ [key]) :=
  List.rel_append h (.cons hshown .nil)

theorem Shows.eq (h : Shows path keys) (hnamed : "?" ∉ path) : path = keys := by
  induction h with
  | nil => rfl
  | cons hshown _ ih =>
    obtain ⟨hne, hrest⟩ := List.ne_and_not_mem_of_not_mem_cons hnamed
    rw [hshown.resolve_right (Ne.symm hne), ih hrest]

/-- The place is the section or a field of it. -/
def ConfigSection.Has (s : ConfigSection) (path : List String) : Prop :=
  Shows path s.path ∨ ∃ field ∈ s.fields, Shows path (s.path ++ [field])

/-- What the problem says is so. A variant that is given as a tag is told by its section. -/
inductive Reports : Problem → Prop
  | unknownField {path : List String} {k : String} (s : ConfigSection) :
      Shows path s.path → k ∉ s.fields → Reports (.unknownField path k s.fields)
  | unknownVariant {path : List String} {text : String} (c : ConfigChoice) :
      Shows path c.path ∨ Shows path c.path.dropLast → text ∉ c.variants →
        Reports (.unknownVariant path text c.variants)
  | wrongType {path : List String} {text expected : String} (s : ConfigSection) :
      s.Has path → Reports (.wrongType path text expected)
  | wrongValue {path : List String} {text expected : String} (s : ConfigSection) :
      s.Has path → Reports (.wrongValue path text expected)
  | malformed : Reports .malformed

theorem raises_readSection {a : α} {expected : String}
    {read : α → String → List String → Nat → Except Problem (Placed α)} (s : ConfigSection)
    (h : Shows path s.path)
    (hread : ∀ a place, ∀ name ∈ s.fields, ∀ inner, Shows inner (s.path ++ [name]) →
      Raises Reports (read a name inner place)) :
    Raises Reports (d.readRecord path expected s.fields a read place) :=
  Document.raises_readRecord .malformed (fun _ _ => .wrongType s (.inl h))
    (fun _ hk => .unknownField s h hk)
    fun a place name hname _ hshown => hread a place name hname _ (h.concat hshown)

theorem CallGraphConfig.raises_read (h : Shows path ["call_graph"]) :
    Raises Reports (CallGraphConfig.read y d path place) := by
  refine raises_readSection .callGraph h fun c place name hname inner hinner => ?_
  have hhas : ConfigSection.callGraph.Has inner := .inr ⟨name, hname, hinner⟩
  split
  · next halgorithm =>
    obtain rfl : name = "algorithm" := by simpa using halgorithm
    refine (Document.raises_readVariant .malformed (fun shown hshown text htext => ?_)
      fun _ _ => .wrongValue .callGraph hhas).bind fun _ => .ok _
    refine .unknownVariant .algorithm ?_ htext
    rcases hshown with rfl | rfl
    · exact .inl hinner
    · exact .inr h
  · refine (Document.raises_readOption .malformed (fun _ _ => .wrongValue .callGraph (.inl h))
      ?_).bind fun _ => .ok _
    exact Document.raises_readScalar .malformed fun _ _ => .wrongType .callGraph hhas

theorem PointsToConfig.raises_read (h : Shows path ["pta"]) :
    Raises Reports (PointsToConfig.read y d path place) := by
  refine raises_readSection .pointsTo h fun c place name hname inner hinner => ?_
  obtain rfl : name = "heap_model" := List.mem_singleton.mp hname
  refine (Document.raises_readVariant .malformed (fun shown hshown text htext => ?_)
    fun _ _ => .wrongValue .pointsTo (.inr ⟨_, hname, hinner⟩)).bind fun _ => .ok _
  refine .unknownVariant .heapModel ?_ htext
  rcases hshown with rfl | rfl
  · exact .inl hinner
  · exact .inr h

theorem ConstantConfig.raises_read (h : Shows path ["constprop"]) :
    Raises Reports (ConstantConfig.read y d path place) :=
  raises_readSection .constants h fun _ _ name hname _ hinner =>
    (Document.raises_readScalar .malformed fun _ _ =>
      .wrongType .constants (.inr ⟨name, hname, hinner⟩)).bind fun _ => .ok _

theorem DeadCodeConfig.raises_read (h : Shows path ["dead_code"]) :
    Raises Reports (DeadCodeConfig.read y d path place) :=
  raises_readSection .deadCode h fun _ _ name hname _ hinner =>
    (Document.raises_readScalar .malformed fun _ _ =>
      .wrongType .deadCode (.inr ⟨name, hname, hinner⟩)).bind fun _ => .ok _

theorem ConfigFile.raises_readField {name : String} (file : ConfigFile) (hname : name ∈ fields)
    (h : Shows path [name]) : Raises Reports (readField y d file name path place) := by
  simp only [fields, List.mem_cons, List.not_mem_nil, or_false] at hname
  rcases hname with rfl | rfl | rfl | rfl | rfl
  · refine (Document.raises_readOption .malformed (fun _ _ => .wrongValue .root (.inl .nil))
      ?_).bind fun _ => .ok _
    exact Document.raises_readScalar .malformed fun _ _ =>
      .wrongType .root (.inr ⟨"version", by decide, h⟩)
  · exact (CallGraphConfig.raises_read h).bind fun _ => .ok _
  · exact (PointsToConfig.raises_read h).bind fun _ => .ok _
  · exact (ConstantConfig.raises_read h).bind fun _ => .ok _
  · exact (DeadCodeConfig.raises_read h).bind fun _ => .ok _

theorem ConfigFile.raises_ofDocument (y : Yaml.Schema) (d : Document) :
    Raises Reports (ofDocument y d) := by
  refine (raises_readSection .root .nil fun file _ name hname _ h =>
    raises_readField file hname h).bind ?_
  rintro ⟨file, _⟩
  dsimp only
  split
  · exact .ok _
  · exact .error .malformed

/-- A file whose first problem is an unknown field is answered with that field, its section and
the section's fields; only behind an alias the section has no name. -/
theorem Config.read_unknownField {y : Yaml.Library} {text k : String} {names : List String}
    (h : ConfigFile.ofDocument y.schema (y.read text) = .error (.unknownField path k names))
    (hnamed : "?" ∉ path) (hk : '\x60' ∉ k.toList) :
    ∃ s : ConfigSection, path = s.path ∧ k ∉ s.fields ∧
      read y text = .error (.unknownField k s.name s.fields) := by
  cases ConfigFile.raises_ofDocument _ _ _ h with
  | unknownField s hpath hfield =>
    obtain rfl := hpath.eq hnamed
    refine ⟨s, rfl, hfield, ?_⟩
    unfold read
    rw [h]
    exact congrArg _ (ConfigError.ofMessage_unknownField_of_notMem s none hk)

end ProgramAnalysis
