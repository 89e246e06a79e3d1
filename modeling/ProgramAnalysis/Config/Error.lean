import ProgramAnalysis.Text.EditDistance
/-!
What can be wrong with a configuration.
-/
namespace ProgramAnalysis

/-- Versions of the file format that can be read. -/
def supportedVersions : List Nat := [1]

inductive ConfigError where
  | unknownField (field section_ : String) (validFields : List String)
  | missingVersion
  | unsupportedVersion (found : Nat)
  | unreadable (reason : String)
  | malformed (reason : String)
  | invalidEntry (entry : String)
deriving DecidableEq, Repr

namespace ConfigError

/-- The hint for a misspelt field. -/
def suggestion (field : String) (validFields : List String) : String :=
  match Text.nearest? field validFields with
  | some c => s!"Did you mean '{c}'?"
  | none => "No valid fields available"

def message : ConfigError → String
  | .unknownField field section_ validFields =>
    s!"Unknown field '{field}' in section '{section_}'. " ++ suggestion field validFields
  | .missingVersion =>
    "Missing 'version' field in configuration file. Add 'version: 1' to the top of your YAML file."
  | .unsupportedVersion found =>
    s!"Unsupported configuration version {found}. Supported versions: " ++
      ", ".intercalate (supportedVersions.map toString)
  | .unreadable reason => s!"IO error: {reason}"
  | .malformed reason => s!"YAML parsing error: {reason}"
  | .invalidEntry entry =>
    s!"Validation error: entry '{entry}' must have the form '<Class: subsignature>'"

end ConfigError
end ProgramAnalysis
