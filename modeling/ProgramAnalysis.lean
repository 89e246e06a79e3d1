import ProgramAnalysis.CallGraph.Indexed
import ProgramAnalysis.Config.Yaml
import ProgramAnalysis.Constant.StoredFact
import ProgramAnalysis.Json.Config
import ProgramAnalysis.Proofs.PointsTo.StoredSet
import ProgramAnalysis.Proofs.CallGraph.Exact
import ProgramAnalysis.Proofs.CallGraph.Refinement
import ProgramAnalysis.Proofs.Constant.Monotone
import ProgramAnalysis.Proofs.Constant.Soundness
import ProgramAnalysis.Proofs.DeadCode.Executed
import ProgramAnalysis.Proofs.Liveness.Exact
import ProgramAnalysis.Proofs.Pipeline.Noninterference
import ProgramAnalysis.Proofs.PointsTo.Coarsening
import ProgramAnalysis.Proofs.Dataflow.Expansion
import ProgramAnalysis.Proofs.PointsTo.Completion
import ProgramAnalysis.Proofs.PointsTo.Intact
import ProgramAnalysis.Proofs.Constant.Extensional
import ProgramAnalysis.Proofs.Constant.Arithmetic
import ProgramAnalysis.Proofs.CallGraph.Chains
import ProgramAnalysis.Proofs.Dataflow.Invariant
import ProgramAnalysis.Proofs.Constant.Locality
import ProgramAnalysis.Proofs.Program.Chain
import ProgramAnalysis.Proofs.Program.Subtyping
import ProgramAnalysis.Proofs.PointsTo.Processed
import ProgramAnalysis.Proofs.Text.EditDistance
import ProgramAnalysis.Proofs.Config.Problem
import ProgramAnalysis.Proofs.Config.RoundTrip
import ProgramAnalysis.Proofs.Dataflow.StoredCfg
import ProgramAnalysis.Proofs.Pipeline.Entry
import ProgramAnalysis.Proofs.PointsTo.Interning
import ProgramAnalysis.Dataflow.StoredIcfg
import ProgramAnalysis.Proofs.Dataflow.StoredIcfg
