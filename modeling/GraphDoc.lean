import GraphDoc.CloneName
import GraphDoc.CommandLine
import GraphDoc.Compile
import GraphDoc.Main
import GraphDoc.Pool
import GraphDoc.Store.View
import GraphDoc.WorkQueue.Basic
import GraphDoc.WorkerPool
import GraphDoc.Proofs.Table
import GraphDoc.Proofs.Store.Closed
import GraphDoc.Proofs.Store.Sound
import GraphDoc.Proofs.Analysis
import GraphDoc.Proofs.FragmentArgument.Binding
import GraphDoc.Proofs.FragmentArgument.Running
import GraphDoc.Proofs.FragmentArgument.Instances
import GraphDoc.Proofs.FragmentArgument.Settling
import GraphDoc.Proofs.FragmentArgument.Termination
import GraphDoc.Proofs.Handover
import GraphDoc.Proofs.Stages
import GraphDoc.Proofs.Fields
import GraphDoc.Proofs.FragmentArgument.Frame
import GraphDoc.Proofs.FragmentArgument.Hygiene
import GraphDoc.Proofs.FragmentArgument.Identity
import GraphDoc.Proofs.FragmentArgument.Required
import GraphDoc.Proofs.Untouched
import GraphDoc.Proofs.References
import GraphDoc.Proofs.DefinitionOrder
import GraphDoc.Proofs.Accounting
import GraphDoc.Proofs.Integrity
import GraphDoc.Proofs.RoundTrip
import GraphDoc.Proofs.Pagination.Evaluation
import GraphDoc.Proofs.ListOperation.Nesting
import GraphDoc.Proofs.Fitting
import GraphDoc.Proofs.RuntimeScalars
import GraphDoc.Proofs.Signatures
import GraphDoc.Proofs.ValueTrees
import GraphDoc.Proofs.Numerals
import GraphDoc.Proofs.SingleWorker
