import ProgramAnalysis.Config.Error
import ProgramAnalysis.Handle
/-!
Failures of building and analysing a program.
-/
namespace ProgramAnalysis

/-- What a body must not contain. -/
inductive BodyFault where
  | abstractMethod
  | staticThis
  | jumpOutside (stmt target size : Nat)
  | foreignVar (stmt : Nat) (var : VarId)
deriving DecidableEq, Repr

def BodyFault.message : BodyFault → String
  | .abstractMethod => "abstract method has a body"
  | .staticThis => "static method declares \x60this\x60"
  | .jumpOutside stmt target size =>
    s!"statement {stmt} jumps to {target} (body has {size} statements)"
  | .foreignVar stmt var => s!"statement {stmt} uses variable {var.text} of another method"

/-- `danglingHandle` stands for a handle that names nothing in its arena. -/
inductive AnalysisError where
  | noEntryMethod
  | entryNotFound (entry : String)
  | missingBody (signature : String)
  | malformedBody (signature : String) (fault : BodyFault)
  | config (e : ConfigError)
  | danglingHandle
deriving DecidableEq, Repr

def AnalysisError.message : AnalysisError → String
  | .noEntryMethod => "No entry method defined for the program"
  | .entryNotFound entry => s!"Entry method not found: {entry}"
  | .missingBody signature => s!"Method {signature} has no body"
  | .malformedBody signature fault => s!"Malformed IR in {signature}: {fault.message}"
  | .config e => s!"Configuration error: {e.message}"
  | .danglingHandle => "Handle names nothing"

end ProgramAnalysis
