import ProgramAnalysis.Config.Error
import ProgramAnalysis.Text.Split
/-!
Settings of an analysis run, in four sections.
-/
namespace ProgramAnalysis

inductive CallGraphAlgorithm where
  | pointsTo
  | classHierarchy
deriving DecidableEq, Repr

inductive HeapModel where
  | allocationSite
  | typeBased
deriving DecidableEq, Repr

namespace CallGraphAlgorithm

/-- The spelling in files and reports. -/
def key : CallGraphAlgorithm → String
  | .pointsTo => "pta"
  | .classHierarchy => "cha"

def label : CallGraphAlgorithm → String
  | .pointsTo => "Pta"
  | .classHierarchy => "Cha"

def all : List CallGraphAlgorithm := [.pointsTo, .classHierarchy]

end CallGraphAlgorithm

namespace HeapModel

def key : HeapModel → String
  | .allocationSite => "allocation_site"
  | .typeBased => "type_based"

def all : List HeapModel := [.allocationSite, .typeBased]

end HeapModel

/-- `entry` is a signature; without one the program's own entry is used. -/
structure CallGraphConfig where
  algorithm : CallGraphAlgorithm
  entry : Option String
deriving DecidableEq

structure PointsToConfig where
  heapModel : HeapModel
deriving DecidableEq

structure ConstantConfig where
  interprocedural : Bool
deriving DecidableEq

structure DeadCodeConfig where
  enabled : Bool
deriving DecidableEq

structure Config where
  callGraph : CallGraphConfig
  pointsTo : PointsToConfig
  constants : ConstantConfig
  deadCode : DeadCodeConfig
deriving DecidableEq

def CallGraphConfig.default : CallGraphConfig := ⟨.pointsTo, none⟩
def PointsToConfig.default : PointsToConfig := ⟨.allocationSite⟩
def ConstantConfig.default : ConstantConfig := ⟨false⟩
def DeadCodeConfig.default : DeadCodeConfig := ⟨true⟩
def Config.default : Config := ⟨.default, .default, .default, .default⟩

/-- `<`, then a class, `: ` and a subsignature, then `>`; no more is asked of the shape. -/
def isSignature (entry : String) : Bool :=
  entry.toList.head? == some '<' && entry.toList.getLast? == some '>' &&
    Text.contains [':', ' '] entry.toList && 4 < entry.utf8ByteSize

namespace CallGraphConfig

def name : String := "CallGraphConfig"

def validate (c : CallGraphConfig) : Except ConfigError Unit :=
  match c.entry with
  | none => .ok ()
  | some entry => if isSignature entry then .ok () else .error (.invalidEntry entry)

end CallGraphConfig

namespace PointsToConfig
def name : String := "PtaConfig"
def validate (_ : PointsToConfig) : Except ConfigError Unit := .ok ()
end PointsToConfig

namespace ConstantConfig
def name : String := "ConstPropConfig"
def validate (_ : ConstantConfig) : Except ConfigError Unit := .ok ()
end ConstantConfig

namespace DeadCodeConfig
def name : String := "DeadCodeConfig"
def validate (_ : DeadCodeConfig) : Except ConfigError Unit := .ok ()
end DeadCodeConfig

namespace Config

def name : String := "AnalysisConfig"

def validate (c : Config) : Except ConfigError Unit := do
  c.callGraph.validate
  c.pointsTo.validate
  c.constants.validate
  c.deadCode.validate

end Config
end ProgramAnalysis
