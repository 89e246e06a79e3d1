import ProgramAnalysis.Config.Basic
import ProgramAnalysis.Config.Message
import ProgramAnalysis.Yaml.Library
import ProgramAnalysis.Yaml.Record
/-!
Configuration files, read and written with any library for YAML. Reading takes the fields in their
order and stops at the first problem; the version, and then the settings, are looked at when all
fields are read.
-/
namespace ProgramAnalysis

open Yaml (Problem)
open Yaml.Document (Placed)

namespace CallGraphConfig

def read (y : Yaml.Schema) (d : Yaml.Document) (path : List String) :
    Nat → Except Problem (Placed CallGraphConfig) :=
  d.readRecord path ("struct " ++ name) ["algorithm", "entry"] default fun c field inner place => do
    if field == "algorithm" then
      let (algorithm, place) ←
        d.readVariant y path inner CallGraphAlgorithm.all CallGraphAlgorithm.key place
      return ({ c with algorithm }, place)
    else
      let (entry, place) ← d.readOption y path (d.readText inner) place
      return ({ c with entry }, place)

end CallGraphConfig

namespace PointsToConfig

def read (y : Yaml.Schema) (d : Yaml.Document) (path : List String) :
    Nat → Except Problem (Placed PointsToConfig) :=
  d.readRecord path ("struct " ++ name) ["heap_model"] default fun _ _ inner place => do
    let (heapModel, place) ← d.readVariant y path inner HeapModel.all HeapModel.key place
    return (⟨heapModel⟩, place)

end PointsToConfig

namespace ConstantConfig

def read (y : Yaml.Schema) (d : Yaml.Document) (path : List String) :
    Nat → Except Problem (Placed ConstantConfig) :=
  d.readRecord path ("struct " ++ name) ["inter_procedural"] default fun _ _ inner place => do
    let (interprocedural, place) ← d.readBool y inner place
    return (⟨interprocedural⟩, place)

end ConstantConfig

namespace DeadCodeConfig

def read (y : Yaml.Schema) (d : Yaml.Document) (path : List String) :
    Nat → Except Problem (Placed DeadCodeConfig) :=
  d.readRecord path ("struct " ++ name) ["enabled"] default fun _ _ inner place => do
    let (enabled, place) ← d.readBool y inner place
    return (⟨enabled⟩, place)

end DeadCodeConfig

/-- The content of a configuration file. -/
structure ConfigFile where
  version : Option Nat
  config : Config

namespace ConfigFile

def fields : List String := ["version", "call_graph", "pta", "constprop", "dead_code"]

def readField (y : Yaml.Schema) (d : Yaml.Document) (file : ConfigFile) (field : String)
    (path : List String) (place : Nat) : Except Problem (Placed ConfigFile) := do
  let c := file.config
  if field == "version" then
    let (version, place) ← d.readOption y [] (d.readNumber y path) place
    return ({ file with version }, place)
  else if field == "call_graph" then
    let (callGraph, place) ← CallGraphConfig.read y d path place
    return ({ file with config := { c with callGraph } }, place)
  else if field == "pta" then
    let (pointsTo, place) ← PointsToConfig.read y d path place
    return ({ file with config := { c with pointsTo } }, place)
  else if field == "constprop" then
    let (constants, place) ← ConstantConfig.read y d path place
    return ({ file with config := { c with constants } }, place)
  else
    let (deadCode, place) ← DeadCodeConfig.read y d path place
    return ({ file with config := { c with deadCode } }, place)

/-- The first problem with a field comes before any with the rest of the stream. -/
def ofDocument (y : Yaml.Schema) (d : Yaml.Document) : Except Problem ConfigFile := do
  let (file, _) ←
    d.readRecord [] "struct ConfigFileV1" fields ⟨none, .default⟩ (readField y d) 0
  if d.sound then return file else .error .malformed

/-- The settings of a version that can be read. -/
def settings (file : ConfigFile) : Except ConfigError Config := do
  match file.version with
  | none => .error .missingVersion
  | some found =>
    if !supportedVersions.contains found then .error (.unsupportedVersion found)
    else
      file.config.validate
      return file.config

end ConfigFile

/-! ### Writing -/

/-- An entry that is not given is not written. -/
def CallGraphConfig.fields (c : CallGraphConfig) : Yaml.Fields :=
  .scalar "algorithm" (.text c.algorithm.key) (match c.entry with
    | none => .nil
    | some e => .scalar "entry" (.text e) .nil)

def PointsToConfig.fields (c : PointsToConfig) : Yaml.Fields :=
  .scalar "heap_model" (.text c.heapModel.key) .nil

def ConstantConfig.fields (c : ConstantConfig) : Yaml.Fields :=
  .scalar "inter_procedural" (.truth c.interprocedural) .nil

def DeadCodeConfig.fields (c : DeadCodeConfig) : Yaml.Fields :=
  .scalar "enabled" (.truth c.enabled) .nil

namespace Config

/-- The file of these settings, in the current version. -/
def fields (c : Config) : Yaml.Fields :=
  .scalar "version" (.number 1) <|
    .mapping "call_graph" c.callGraph.fields <|
    .mapping "pta" c.pointsTo.fields <|
    .mapping "constprop" c.constants.fields <|
    .mapping "dead_code" c.deadCode.fields .nil

def write (c : Config) (y : Yaml.Library) : String := y.write c.fields

def read (y : Yaml.Library) (text : String) : Except ConfigError Config :=
  match ConfigFile.ofDocument y.schema (y.read text) with
  | .ok file => file.settings
  | .error problem => .error (ConfigError.ofMessage problem.message)

def ofYaml : String → Except ConfigError Config := read .standard

/-- The bytes of a file; none if there is no such file. -/
def ofFile (bytes : Option ByteArray) : Except ConfigError Config :=
  match bytes with
  | none => .error (.unreadable "no such file")
  | some bytes =>
    match String.fromUTF8? bytes with
    | none => .error (.unreadable "not UTF-8")
    | some text => ofYaml text

def toYaml (c : Config) : String := c.write .standard

end Config
end ProgramAnalysis
