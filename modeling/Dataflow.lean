import Dataflow.Composite
import Dataflow.Main
import Dataflow.Session
import Dataflow.Actor.Requests
import Dataflow.CommandLine.Execute
import Dataflow.Proofs.Slicing
import Dataflow.Proofs.Coincidence
import Dataflow.Proofs.WellScoped
import Dataflow.Proofs.Constraints
import Dataflow.Proofs.MostGeneral
import Dataflow.Proofs.Resumption
import Dataflow.Proofs.Monotone
import Dataflow.Proofs.Replay
import Dataflow.Proofs.Actor.Serial
import Dataflow.Proofs.Actor.Answering
import Dataflow.Proofs.Actor.Wakeups
import Dataflow.Proofs.Actor.Stopping
import Dataflow.Proofs.BoundedRun
import Dataflow.Proofs.Continuations
import Dataflow.Proofs.Actor.Worlds
import Dataflow.Proofs.Carrying
import Dataflow.Proofs.Declarative
import Dataflow.Proofs.Documents
import Dataflow.Proofs.Actor.Lifecycle
import Dataflow.Proofs.Actor.Preemption
import Dataflow.Proofs.Actor.Division
import Dataflow.Proofs.Actor.Handover
import Dataflow.Proofs.Actor.Sharing
import Dataflow.Proofs.Actor.Orderly
import Dataflow.Proofs.Entailing
import Dataflow.Proofs.Unfolding
import Dataflow.Proofs.Confluence
import Dataflow.Proofs.Patterns
import Dataflow.Proofs.ExactPatterns
import Dataflow.Proofs.Termination
import Dataflow.Proofs.Integers
import Dataflow.Proofs.Merging
import Dataflow.Proofs.Faulting
import Dataflow.Proofs.Iterating
import Dataflow.Proofs.Rebuilding
import Dataflow.Proofs.Containment
import Dataflow.Proofs.Drawings
import Dataflow.Proofs.Exporting
import Dataflow.Proofs.FaultTexts
