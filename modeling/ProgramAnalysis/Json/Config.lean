import ProgramAnalysis.Config.Basic
import ProgramAnalysis.Json.Basic
/-!
The JSON form of settings. What is left out keeps its default, and unknown members are refused.
-/
namespace ProgramAnalysis

namespace Json

/-- The fields of a record whose fields have defaults: by name from an object without other
members, or by position from an array that may be shorter. -/
def settings? (names : List String) : Json → Option (List (Option Json))
  | .obj members =>
    if members.all fun m => names.contains m.1 then
      some (names.map fun n => members.lookup n)
    else none
  | .arr items =>
    if items.length ≤ names.length then
      some (items.map some ++ List.replicate (names.length - items.length) none)
    else none
  | _ => none

def orDefault? {α : Type} (read? : Json → Option α) (default : α) : Option Json → Option α
  | none => some default
  | some j => read? j

end Json

namespace CallGraphAlgorithm
def toJson (a : CallGraphAlgorithm) : Json := .str a.key
def ofJson? (j : Json) : Option CallGraphAlgorithm :=
  j.bareCase?.bind fun t => all.find? fun a => a.key == t
end CallGraphAlgorithm

namespace HeapModel
def toJson (h : HeapModel) : Json := .str h.key
def ofJson? (j : Json) : Option HeapModel := j.bareCase?.bind fun t => all.find? fun h => h.key == t
end HeapModel

namespace CallGraphConfig
def toJson (c : CallGraphConfig) : Json :=
  .obj (("algorithm", c.algorithm.toJson) :: (c.entry.map fun e => ("entry", .str e)).toList)
def ofJson? (j : Json) : Option CallGraphConfig := do
  let [algorithm, entry] ← j.settings? ["algorithm", "entry"] | none
  return ⟨← Json.orDefault? CallGraphAlgorithm.ofJson? CallGraphConfig.default.algorithm algorithm,
    ← Json.option? Json.str? entry⟩
end CallGraphConfig

namespace PointsToConfig
def toJson (c : PointsToConfig) : Json := .obj [("heap_model", c.heapModel.toJson)]
def ofJson? (j : Json) : Option PointsToConfig := do
  let [model] ← j.settings? ["heap_model"] | none
  return ⟨← Json.orDefault? HeapModel.ofJson? PointsToConfig.default.heapModel model⟩
end PointsToConfig

namespace ConstantConfig
def toJson (c : ConstantConfig) : Json := .obj [("inter_procedural", .bool c.interprocedural)]
def ofJson? (j : Json) : Option ConstantConfig := do
  let [inter] ← j.settings? ["inter_procedural"] | none
  return ⟨← Json.orDefault? Json.bool? ConstantConfig.default.interprocedural inter⟩
end ConstantConfig

namespace DeadCodeConfig
def toJson (c : DeadCodeConfig) : Json := .obj [("enabled", .bool c.enabled)]
def ofJson? (j : Json) : Option DeadCodeConfig := do
  let [enabled] ← j.settings? ["enabled"] | none
  return ⟨← Json.orDefault? Json.bool? DeadCodeConfig.default.enabled enabled⟩
end DeadCodeConfig

namespace Config

def toJson (c : Config) : Json :=
  .obj [("call_graph", c.callGraph.toJson), ("pta", c.pointsTo.toJson),
    ("constprop", c.constants.toJson), ("dead_code", c.deadCode.toJson)]

def ofJson? (j : Json) : Option Config := do
  let [calls, points, constants, dead] ←
    j.settings? ["call_graph", "pta", "constprop", "dead_code"] | none
  return ⟨← Json.orDefault? CallGraphConfig.ofJson? CallGraphConfig.default calls,
    ← Json.orDefault? PointsToConfig.ofJson? PointsToConfig.default points,
    ← Json.orDefault? ConstantConfig.ofJson? ConstantConfig.default constants,
    ← Json.orDefault? DeadCodeConfig.ofJson? DeadCodeConfig.default dead⟩

end Config
end ProgramAnalysis
