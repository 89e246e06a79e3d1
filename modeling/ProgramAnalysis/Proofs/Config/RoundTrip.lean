import ProgramAnalysis.Config.Yaml
import ProgramAnalysis.Proofs.Yaml.Library
import ProgramAnalysis.Proofs.Yaml.Record

/-! Settings survive the file they are written to, whatever library writes and reads it: its document
lists the fields in their order, and they are read one by one into the same settings again. -/
namespace ProgramAnalysis

open Yaml (Document Library)

variable {y : Library} {d : Document} {place : Nat} {xs items : List Yaml.Item} {path : List String}

/-! ### What is written -/

theorem isName_keys : ∀ key ∈ ["version", "call_graph", "algorithm", "entry", "pta", "heap_model",
    "constprop", "inter_procedural", "dead_code", "enabled"], Yaml.IsName key.toList := by
  intro key hkey
  simp only [List.mem_cons, List.not_mem_nil, or_false] at hkey
  rcases hkey with rfl | rfl | rfl | rfl | rfl | rfl | rfl | rfl | rfl | rfl <;>
    exact ⟨by decide, by decide, by decide⟩

theorem CallGraphConfig.fields_flat (c : CallGraphConfig) : c.fields.Flat := by
  refine ⟨isName_keys _ (by simp), ?_⟩
  cases c.entry with
  | none => trivial
  | some e => exact ⟨isName_keys _ (by simp), trivial⟩

theorem Config.fields_sectioned (c : Config) : c.fields.Sectioned :=
  ⟨isName_keys _ (by simp), isName_keys _ (by simp), nofun, c.callGraph.fields_flat,
    isName_keys _ (by simp), nofun, ⟨isName_keys _ (by simp), trivial⟩,
    isName_keys _ (by simp), nofun, ⟨isName_keys _ (by simp), trivial⟩,
    isName_keys _ (by simp), nofun, ⟨isName_keys _ (by simp), trivial⟩, trivial⟩

/-! ### What is read -/

/-- A record that was written with one field. -/
theorem Yaml.Document.readRecord_listed {α : Type} {key expected : String} {value : Yaml.Datum}
    {names : List String} {init a : α}
    {read : α → String → List String → Nat → Except Yaml.Problem (Placed α)}
    (hlist : (Yaml.Fields.scalar key value .nil).Listed y.scalar items)
    (h : d.Ahead place (.mappingStart none :: (items ++ .mappingEnd :: xs))) (hname : key ∈ names)
    (hread : d.Ahead (place + 2) ((y.scalar value).item :: .mappingEnd :: xs) →
      read init key (path ++ [key]) (place + 2) = .ok (a, place + 3)) :
    ∃ next, d.readRecord path expected names init read place = .ok (a, next) ∧ d.Ahead next xs := by
  cases hlist with
  | scalar style htail =>
  cases htail
  exact readRecord_single h hname (hread h.tail.tail)

theorem CallGraphConfig.read_ahead (hy : y.Documented) (c : CallGraphConfig) (path : List String)
    (hlist : c.fields.Listed y.scalar items)
    (h : d.Ahead place (.mappingStart none :: (items ++ .mappingEnd :: xs))) :
    ∃ next, CallGraphConfig.read y.schema d path place = .ok (c, next) ∧ d.Ahead next xs := by
  have hfind : CallGraphAlgorithm.all.find? (fun a => a.key == c.algorithm.key) =
      some c.algorithm := by
    cases c.algorithm <;> decide
  obtain ⟨algorithm, entry⟩ := c
  cases entry with
  | none =>
    refine Document.readRecord_listed hlist h (by decide) ?_
    intro hvalue
    rw [hy.item_text] at hvalue
    simp [Document.readVariant_ahead hvalue hfind, bind, Except.bind, pure, Except.pure, default]
  | some e =>
    cases hlist with
    | scalar style htail =>
    cases htail with
    | scalar style' htail =>
    cases htail
    rw [hy.item_text, hy.item_text] at h
    obtain ⟨k, hk⟩ := Nat.exists_eq_add_of_le' h.length_le
    have hentry := h.tail.tail.tail.tail
    refine ⟨place + 6, Document.readRecord_ahead h ?_, hentry.tail.tail⟩
    rw [hk, List.length_cons, ← Nat.add_assoc]
    refine (Document.readFields_field ⟨algorithm, none⟩ (place + 3) h.tail (by decide)
      List.not_mem_nil ?_).trans ?_
    · simp [Document.readVariant_ahead h.tail.tail hfind, bind, Except.bind, pure, Except.pure,
        default]
    · refine (Document.readFields_field ⟨algorithm, some e⟩ (place + 5) h.tail.tail.tail
        (by decide) (by decide) ?_).trans ?_
      · simp [Document.readOption_ahead hentry (hy.text_isNone e) (Document.readText_ahead hentry),
          bind, Except.bind, pure, Except.pure]
      · exact Document.readFields_end hentry.tail _

theorem PointsToConfig.read_ahead (hy : y.Documented) (c : PointsToConfig) (path : List String)
    (hlist : c.fields.Listed y.scalar items)
    (h : d.Ahead place (.mappingStart none :: (items ++ .mappingEnd :: xs))) :
    ∃ next, PointsToConfig.read y.schema d path place = .ok (c, next) ∧ d.Ahead next xs := by
  have hfind : HeapModel.all.find? (fun m => m.key == c.heapModel.key) = some c.heapModel := by
    cases c.heapModel <;> decide
  refine Document.readRecord_listed hlist h (by decide) ?_
  intro hvalue
  rw [hy.item_text] at hvalue
  simp [Document.readVariant_ahead hvalue hfind, bind, Except.bind, pure, Except.pure]

theorem ConstantConfig.read_ahead (hy : y.Documented) (c : ConstantConfig) (path : List String)
    (hlist : c.fields.Listed y.scalar items)
    (h : d.Ahead place (.mappingStart none :: (items ++ .mappingEnd :: xs))) :
    ∃ next, ConstantConfig.read y.schema d path place = .ok (c, next) ∧ d.Ahead next xs := by
  refine Document.readRecord_listed hlist h (by decide) ?_
  intro hvalue
  rw [hy.item_truth] at hvalue
  simp [Document.readBool_ahead hvalue (hy.bool? _), bind, Except.bind, pure, Except.pure]

theorem DeadCodeConfig.read_ahead (hy : y.Documented) (c : DeadCodeConfig) (path : List String)
    (hlist : c.fields.Listed y.scalar items)
    (h : d.Ahead place (.mappingStart none :: (items ++ .mappingEnd :: xs))) :
    ∃ next, DeadCodeConfig.read y.schema d path place = .ok (c, next) ∧ d.Ahead next xs := by
  refine Document.readRecord_listed hlist h (by decide) ?_
  intro hvalue
  rw [hy.item_truth] at hvalue
  simp [Document.readBool_ahead hvalue (hy.bool? _), bind, Except.bind, pure, Except.pure]

theorem readVersion_ahead (hy : y.Documented)
    (h : d.Ahead place ((y.scalar (.number 1)).item :: xs)) :
    d.readOption y.schema [] (d.readNumber y.schema path) place = .ok (some 1, place + 1) := by
  rw [hy.item_number] at h
  exact Document.readOption_ahead h (fun _ => hy.number_isNone 1)
    (Document.readNumber_ahead h (hy.number? 1))

/-- The fields of a file are read one after the other, each from where the one before it ends. -/
theorem ConfigFile.readFields_listed (hy : y.Documented) (c : Config)
    (hlist : c.fields.Listed y.scalar items) (fuel : Nat)
    (h : d.Ahead place (items ++ .mappingEnd :: xs)) :
    ∃ stop, d.readFields [] fields (readField y.schema d) (fuel + 6) [] ⟨none, .default⟩ place =
      .ok (⟨some 1, c⟩, stop) := by
  cases hlist with
  | scalar style hlist =>
  cases hlist with
  | mapping style₁ hlist₁ hlist =>
  cases hlist with
  | mapping style₂ hlist₂ hlist =>
  cases hlist with
  | mapping style₃ hlist₃ hlist =>
  cases hlist with
  | mapping style₄ hlist₄ hlist =>
  cases hlist
  simp only [List.cons_append, List.append_assoc, List.nil_append] at h
  have hversion : d.readOption y.schema [] (d.readNumber y.schema ["version"]) (place + 1) =
      .ok (some 1, place + 2) :=
    readVersion_ahead hy h.tail
  obtain ⟨p₁, hcallGraph, h₁⟩ :=
    c.callGraph.read_ahead hy ["call_graph"] hlist₁ h.tail.tail.tail
  obtain ⟨p₂, hpointsTo, h₂⟩ := c.pointsTo.read_ahead hy ["pta"] hlist₂ h₁.tail
  obtain ⟨p₃, hconstants, h₃⟩ := c.constants.read_ahead hy ["constprop"] hlist₃ h₂.tail
  obtain ⟨p₄, hdeadCode, h₄⟩ := c.deadCode.read_ahead hy ["dead_code"] hlist₄ h₃.tail
  refine ⟨p₄ + 1, ?_⟩
  refine (Document.readFields_field ⟨some 1, .default⟩ (place + 2) h (by decide)
    List.not_mem_nil ?_).trans ?_
  · simp [readField, hversion, bind, Except.bind, pure, Except.pure]
  refine (Document.readFields_field ⟨some 1, { Config.default with callGraph := c.callGraph }⟩ p₁
    h.tail.tail (by decide) (by decide) ?_).trans ?_
  · simp [readField, hcallGraph, bind, Except.bind, pure, Except.pure]
  refine (Document.readFields_field ⟨some 1, { Config.default with
    callGraph := c.callGraph, pointsTo := c.pointsTo }⟩ p₂ h₁ (by decide) (by decide) ?_).trans ?_
  · simp [readField, hpointsTo, bind, Except.bind, pure, Except.pure]
  refine (Document.readFields_field ⟨some 1, { c with deadCode := .default }⟩ p₃ h₂ (by decide)
    (by decide) ?_).trans ?_
  · simp [readField, hconstants, bind, Except.bind, pure, Except.pure, Config.default]
  refine (Document.readFields_field ⟨some 1, c⟩ p₄ h₃ (by decide) (by decide) ?_).trans ?_
  · simp [readField, hdeadCode, bind, Except.bind, pure, Except.pure]
  exact Document.readFields_end h₄ fuel

theorem ConfigFile.ofDocument_listed (hy : y.Documented) (c : Config)
    (hlist : c.fields.Listed y.scalar items) :
    ofDocument y.schema (.ofItems items) = .ok ⟨some 1, c⟩ := by
  have h : Document.Ahead (.ofItems items) 0 (.mappingStart none :: (items ++ [.mappingEnd])) := rfl
  have hlength : 5 ≤ items.length := by
    cases hlist with
    | scalar style hlist =>
    cases hlist with
    | mapping style hlist₁ hlist =>
    simp only [List.length_cons, List.length_append]
    omega
  obtain ⟨fuel, hfuel⟩ : ∃ fuel, (Document.ofItems items).items.size + 1 = fuel + 6 :=
    Nat.exists_eq_add_of_le' (by simp [Document.ofItems]; omega)
  obtain ⟨stop, hread⟩ := readFields_listed hy c hlist fuel h.tail
  have hrecord : Document.readRecord _ [] "struct ConfigFileV1" fields ⟨none, .default⟩
      (readField y.schema _) 0 = .ok (⟨some 1, c⟩, stop) :=
    Document.readRecord_ahead h (by rw [hfuel]; exact hread)
  simp only [ofDocument, hrecord, bind, Except.bind]
  rfl

theorem ConfigFile.settings_current (c : Config) :
    ConfigFile.settings ⟨some 1, c⟩ = c.validate.map fun _ => c := by
  cases h : c.validate <;>
    simp [settings, supportedVersions, h, bind, Except.bind, pure, Except.pure, Except.map]

/-- The other sections have nothing to be validated. -/
theorem Config.validate_eq (c : Config) : c.validate = c.callGraph.validate := by
  cases h : c.callGraph.validate <;>
    simp [validate, PointsToConfig.validate, ConstantConfig.validate, DeadCodeConfig.validate, h,
      bind, Except.bind]

theorem Config.validate_eq_error {c : Config} {e : ConfigError} (h : c.validate = .error e) :
    ∃ entry, c.callGraph.entry = some entry ∧ e = .invalidEntry entry := by
  rw [validate_eq, CallGraphConfig.validate] at h
  split at h
  · contradiction
  · next entry hentry =>
    split at h
    · contradiction
    · exact ⟨entry, hentry, (Except.error.inj h).symm⟩

/-- Settings that are valid come back from the file they are written to, whatever their entry is
made of; a file of others is refused with the error that they give themselves. The library may be
any that writes and reads as libraries document. -/
theorem Config.read_write (hy : y.Documented) (c : Config) :
    match c.validate with
    | .ok () => read y (c.write y) = .ok c
    | .error e => read y (c.write y) = .error e ∧
        ∃ entry, c.callGraph.entry = some entry ∧ e = .invalidEntry entry := by
  obtain ⟨items, hlist, hdocument⟩ := hy.document c.fields nofun c.fields_sectioned
  have hread : read y (c.write y) = c.validate.map fun _ => c := by
    unfold read write
    rw [hdocument, ConfigFile.ofDocument_listed hy c hlist]
    exact ConfigFile.settings_current c
  rw [hread]
  cases h : c.validate with
  | ok => rfl
  | error e => exact ⟨rfl, validate_eq_error h⟩

def Config.withEntry (entry : String) : Config :=
  { Config.default with callGraph := ⟨.classHierarchy, some entry⟩ }

/-- An entry of two lines is written as a block, and one that reads like nothing in quotes. -/
theorem Config.read_write_standard : Library.standard.Documented ∧
    ofYaml (withEntry "<A: m\n>").toYaml = .ok (withEntry "<A: m\n>") ∧
    ofYaml (withEntry "null").toYaml = .error (.invalidEntry "null") := by
  have hdocumented := Library.documented_standard
  have hvalid : (withEntry "<A: m\n>").validate = .ok () := rfl
  have hinvalid : (withEntry "null").validate = .error (.invalidEntry "null") := rfl
  have hblock := read_write hdocumented (withEntry "<A: m\n>")
  have hquoted := read_write hdocumented (withEntry "null")
  rw [hvalid] at hblock
  rw [hinvalid] at hquoted
  exact ⟨hdocumented, hblock, hquoted.1⟩

end ProgramAnalysis
