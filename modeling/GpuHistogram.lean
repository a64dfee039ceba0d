import GpuHistogram.Histogram.Compile
import GpuHistogram.Machine.Launch
import GpuHistogram.Source.DeviceCode
import GpuHistogram.Code.Print
import GpuHistogram.Proofs.Accumulate
import GpuHistogram.Proofs.Agreement
import GpuHistogram.Proofs.Allocation
import GpuHistogram.Proofs.CapturedRuns
import GpuHistogram.Proofs.Captures
import GpuHistogram.Proofs.FoldedRuns
import GpuHistogram.Proofs.GlobalKernel
import GpuHistogram.Proofs.Emission
import GpuHistogram.Proofs.LocalKernel
import GpuHistogram.Proofs.Lowered
import GpuHistogram.Proofs.Parameters
import GpuHistogram.Proofs.Refusals
import GpuHistogram.Proofs.Deployment
import GpuHistogram.Proofs.Provisions
import GpuHistogram.Proofs.Budget
import GpuHistogram.Proofs.Deferral
import GpuHistogram.Proofs.PointLists
import GpuHistogram.Proofs.Selection
import GpuHistogram.Proofs.GlobalCode
import GpuHistogram.Proofs.GlobalRuns
import GpuHistogram.Proofs.ArrayChanges
import GpuHistogram.Proofs.Hygiene
import GpuHistogram.Proofs.TypedRuns
import GpuHistogram.Proofs.ReadBack
import GpuHistogram.Proofs.NoLostUpdates
import GpuHistogram.Proofs.GroupLoops
import GpuHistogram.Proofs.LocalGroup
import GpuHistogram.Proofs.LocalLoops
import GpuHistogram.Proofs.Combining
import GpuHistogram.Proofs.Lexical
import GpuHistogram.Proofs.EmptySpaces
import GpuHistogram.Proofs.LocalRuns
import GpuHistogram.Proofs.Decision
import GpuHistogram.Proofs.EntryPoints
import GpuHistogram.Proofs.Regrouping
import GpuHistogram.Proofs.Dumps
import GpuHistogram.Proofs.Exchange
import GpuHistogram.Proofs.LaunchLimits
import GpuHistogram.Proofs.Isolation
import GpuHistogram.Proofs.CopyLifetimes
import GpuHistogram.Proofs.Modular
import GpuHistogram.Proofs.BitPatterns
import GpuHistogram.Proofs.Literals
import GpuHistogram.Proofs.Totality
import GpuHistogram.Proofs.NormalForm
import GpuHistogram.Proofs.LockTables
import GpuHistogram.Proofs.Addresses
import GpuHistogram.Proofs.WorkLoops
import GpuHistogram.Proofs.WorkSharing
import GpuHistogram.Proofs.Traversals
import GpuHistogram.Proofs.OpenRuns
