import DistributedAbstractions.Lib.CString
import DistributedAbstractions.Lib.Cells
import DistributedAbstractions.Lib.Heap
import DistributedAbstractions.Lib.Latest
import DistributedAbstractions.Lib.Access
import DistributedAbstractions.Lib.Simulation
import DistributedAbstractions.Lib.Path
import DistributedAbstractions.Lib.Heartbeat
import DistributedAbstractions.Lib.Hosting
import DistributedAbstractions.Lib.Run
import DistributedAbstractions.Lib.Net
import DistributedAbstractions.Lib.NetFacts
import DistributedAbstractions.Lib.Quorum
import DistributedAbstractions.Lib.Quiesce
import DistributedAbstractions.Lib.Float32
import DistributedAbstractions.Lib.Machine
import DistributedAbstractions.Lib.Inbox
import DistributedAbstractions.Lib.Timeval
import DistributedAbstractions.Spec.Common
import DistributedAbstractions.Spec.Parsing
import DistributedAbstractions.Spec.Brb
import DistributedAbstractions.Proofs.BrbLocal
import DistributedAbstractions.Spec.BrbSystem
import DistributedAbstractions.Proofs.BrbCertificates
import DistributedAbstractions.Proofs.BrbSafety
import DistributedAbstractions.Proofs.BrbProgress
import DistributedAbstractions.Proofs.BrbTotality
import DistributedAbstractions.Proofs.BrbValidity
import DistributedAbstractions.Proofs.BrbStuck
import DistributedAbstractions.Spec.BcFrame
import DistributedAbstractions.Spec.Urb
import DistributedAbstractions.Proofs.Forwarding
import DistributedAbstractions.Proofs.UrbLocal
import DistributedAbstractions.Proofs.UrbTable
import DistributedAbstractions.Proofs.UrbAgreement
import DistributedAbstractions.Proofs.UrbIntegrity
import DistributedAbstractions.Spec.Rb
import DistributedAbstractions.Proofs.RbLocal
import DistributedAbstractions.Proofs.RbRuns
import DistributedAbstractions.Proofs.RbAgreement
import DistributedAbstractions.Proofs.RbIntegrity
import DistributedAbstractions.Spec.Ble
import DistributedAbstractions.Proofs.BleLocal
import DistributedAbstractions.Proofs.BleSafety
import DistributedAbstractions.Proofs.BleProgress
import DistributedAbstractions.Spec.Links
import DistributedAbstractions.Proofs.ShiftLoop
import DistributedAbstractions.Proofs.ForgedTraffic
import DistributedAbstractions.Spec.FailureDetectors
import DistributedAbstractions.Proofs.HeardPeriods
import DistributedAbstractions.Proofs.PfdDetection
import DistributedAbstractions.Proofs.EpfdSuspicion
import DistributedAbstractions.Proofs.EpfdAlternation
import DistributedAbstractions.Spec.LeaderElection
import DistributedAbstractions.Proofs.MleLeader
import DistributedAbstractions.Proofs.EleEpochs
import DistributedAbstractions.Spec.PerfectLink
import DistributedAbstractions.Proofs.PlDedup
import DistributedAbstractions.Proofs.PlExact
import DistributedAbstractions.Proofs.Stripping
import DistributedAbstractions.Spec.AuthLink
import DistributedAbstractions.Proofs.AuthRuns
import DistributedAbstractions.Spec.Orchestrator
import DistributedAbstractions.Proofs.OrchSteps
import DistributedAbstractions.Proofs.OrchWait
import DistributedAbstractions.Proofs.OrchScan
import DistributedAbstractions.Proofs.OrchPace
import DistributedAbstractions.Proofs.OrchDue
import DistributedAbstractions.Spec.Retransmission
import DistributedAbstractions.Proofs.Coverage
import DistributedAbstractions.Spec.EventualLeader
import DistributedAbstractions.Proofs.EleCandidates
import DistributedAbstractions.Proofs.EleSelection
import DistributedAbstractions.Proofs.ElePeriod
import DistributedAbstractions.Spec.SendErrors
import DistributedAbstractions.Spec.Sending
import DistributedAbstractions.Spec.Stack
import DistributedAbstractions.Spec.BroadcastStack
import DistributedAbstractions.Proofs.StackTraffic
import DistributedAbstractions.Proofs.StackRefinement
import DistributedAbstractions.Proofs.StackDelivery
import DistributedAbstractions.Proofs.BroadcastStack
import DistributedAbstractions.Proofs.UrbStack
import DistributedAbstractions.Proofs.BebStack
import DistributedAbstractions.Proofs.AllOrNothing
import DistributedAbstractions.Proofs.Truncation
import DistributedAbstractions.Proofs.RoundTrip
import DistributedAbstractions.Proofs.AplRoundTrip
import DistributedAbstractions.Proofs.StaleSignature
import DistributedAbstractions.Spec.Arrays
import DistributedAbstractions.Proofs.Malformed
import DistributedAbstractions.Proofs.UrbRobust
import DistributedAbstractions.Spec.LoggedLink
import DistributedAbstractions.Proofs.LogExact
import DistributedAbstractions.Proofs.BrbCounts
import DistributedAbstractions.Proofs.BrbAttribution
import DistributedAbstractions.Spec.Registry
import DistributedAbstractions.Proofs.RegistryUse
import DistributedAbstractions.Spec.LinkedList
import DistributedAbstractions.Proofs.ListChain
import DistributedAbstractions.Spec.Splitting
import DistributedAbstractions.Proofs.SplitFields
import DistributedAbstractions.Proofs.FrameGrammar
import DistributedAbstractions.Proofs.BleSteady
import DistributedAbstractions.Spec.RbHistory
import DistributedAbstractions.Proofs.RbHistory
import DistributedAbstractions.Spec.Upcalls
import DistributedAbstractions.Proofs.UpcallContexts
import DistributedAbstractions.Proofs.UpcallTypes
import DistributedAbstractions.Spec.Detection
import DistributedAbstractions.Proofs.Detection
import DistributedAbstractions.Proofs.MleSystem
import DistributedAbstractions.Spec.RbNode
import DistributedAbstractions.Proofs.RbNode
import DistributedAbstractions.Spec.AuthStack
import DistributedAbstractions.Proofs.AuthStack
import DistributedAbstractions.Lib.Eventually
import DistributedAbstractions.Spec.Election
import DistributedAbstractions.Proofs.Election
import DistributedAbstractions.Proofs.ElectionSettles
import DistributedAbstractions.Spec.EventualDetection
import DistributedAbstractions.Proofs.EventualDetection
import DistributedAbstractions.Spec.Dispatch
import DistributedAbstractions.Proofs.Dispatch
import DistributedAbstractions.Proofs.DispatchServes
import DistributedAbstractions.Spec.Recurrence
import DistributedAbstractions.Proofs.Recurrence
