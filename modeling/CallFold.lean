import CallFold.Assembly
import CallFold.Instruction.Printer
import CallFold.Proofs.Aliasing
import CallFold.Proofs.AssembledMethods
import CallFold.Proofs.Bookkeeping
import CallFold.Proofs.BulkQueries
import CallFold.Proofs.Failures
import CallFold.Proofs.IterationBound
import CallFold.Proofs.LeastFixedPoint
import CallFold.Proofs.Lookups
import CallFold.Proofs.Merging
import CallFold.Proofs.Persistence
import CallFold.Proofs.Regrouping
import CallFold.Proofs.Replay
import CallFold.Proofs.Stability
import CallFold.Proofs.StraightLine
import CallFold.Proofs.SupertypeWalk
import CallFold.Proofs.TraceDepth
import CallFold.Proofs.TracerAgreement
import CallFold.Proofs.TypeNames
