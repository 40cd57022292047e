import Monomorph.Main
import Monomorph.Generate
import Monomorph.Inspect
import Monomorph.Script.FrontEnd
import Monomorph.Script.Reader
import Monomorph.Proofs.Ssa.Reads
import Monomorph.Proofs.Ssa.Verified
import Monomorph.Proofs.Lowering.Standard
import Monomorph.Proofs.Ty.Readable
import Monomorph.Ty.Equality
import Monomorph.Proofs.Session.Asking
import Monomorph.Proofs.Session.Events
import Monomorph.Proofs.Session.Queues
import Monomorph.Proofs.Run.History
import Monomorph.Proofs.Run.Served
import Monomorph.Proofs.Assembly.Slots
import Monomorph.Proofs.Session.Targets
import Monomorph.Proofs.Run.Dispatched
import Monomorph.Proofs.Ty.Inside
import Monomorph.Proofs.Session.Stored
import Monomorph.Proofs.Session.Settled
import Monomorph.Proofs.Session.Registry
import Monomorph.Proofs.Run.Least
import Monomorph.Proofs.Run.Closed
import Monomorph.Proofs.Wire.Assembly
import Monomorph.Proofs.Body.Finished
import Monomorph.Proofs.Run.Bounded
import Monomorph.Proofs.Run.Resolved
import Monomorph.Proofs.Session.Identity
import Monomorph.Proofs.Body.Accepted
import Monomorph.Proofs.Lowering.Delivered
import Monomorph.Proofs.Run.Outcome
import Monomorph.Proofs.Graph.PostOrder
import Monomorph.Proofs.Ssa.Faults
import Monomorph.Proofs.Ssa.Placement
import Monomorph.Proofs.Lowering.Exact
import Monomorph.Proofs.Lowering.Lifetimes
import Monomorph.Proofs.Lowering.FixedPoint
import Monomorph.Proofs.Wire.Literals
import Monomorph.Proofs.Session.Again
import Monomorph.Proofs.Typing.Merges
import Monomorph.Proofs.Op.Registers
import Monomorph.Proofs.Lowering.Truthful
import Monomorph.Proofs.Union.Canonical
