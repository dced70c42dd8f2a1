import IonSchedule.Binary64
import IonSchedule.Binary64.Shortest
import IonSchedule.Builder
import IonSchedule.Catalog
import IonSchedule.Circuit
import IonSchedule.CircuitError
import IonSchedule.Command.Arguments
import IonSchedule.Command.Files
import IonSchedule.Command.Run
import IonSchedule.Command.Settings
import IonSchedule.Declaration
import IonSchedule.Encoding.GateTable
import IonSchedule.Encoding.Read
import IonSchedule.Encoding.Write
import IonSchedule.Gate
import IonSchedule.Hexadecimal
import IonSchedule.Jaqal
import IonSchedule.Json
import IonSchedule.Json.Printer
import IonSchedule.Json.Reader
import IonSchedule.Json.Token
import IonSchedule.Literal
import IonSchedule.Main
import IonSchedule.Pass
import IonSchedule.Proofs.Reading
import IonSchedule.Register
import IonSchedule.Schedule
import IonSchedule.Selection
import IonSchedule.Statement
import IonSchedule.Timeline
import IonSchedule.Usage
import IonSchedule.Verification
import IonSchedule.Yaml
import IonSchedule.Yaml.Lexer
import IonSchedule.Yaml.Reader
import IonSchedule.Yaml.Scalar
import IonSchedule.Yaml.Token
import IonSchedule.Proofs.TimelineInvariant
import IonSchedule.Proofs.Derivation
import IonSchedule.Proofs.ScheduledCircuit
import IonSchedule.Proofs.Preservation
import IonSchedule.Proofs.SlotOrder
import IonSchedule.Proofs.NormalForm
import IonSchedule.Proofs.Occurrences
import IonSchedule.Proofs.ParallelLegality
import IonSchedule.Proofs.ScheduledForm
import IonSchedule.Proofs.Resolution
import IonSchedule.Proofs.Success
import IonSchedule.Proofs.Validation
import IonSchedule.Proofs.Barrier
import IonSchedule.Proofs.Expansion
import IonSchedule.Proofs.ExpandedOrder
import IonSchedule.Proofs.ExecutionOrder
import IonSchedule.Proofs.Positions
import IonSchedule.Proofs.Declarations
import IonSchedule.Proofs.BuilderSteps
import IonSchedule.Proofs.BuilderRegions
import IonSchedule.Proofs.BuilderValidity
import IonSchedule.Proofs.Rounding
import IonSchedule.Proofs.NumberText
import IonSchedule.Proofs.JsonText
import IonSchedule.Proofs.CircuitEncoding
import IonSchedule.Proofs.JaqalWords
import IonSchedule.Proofs.JaqalLines
import IonSchedule.Proofs.JaqalText
import IonSchedule.Proofs.Failure
import IonSchedule.Proofs.ParameterBinding
import IonSchedule.Proofs.Leaves
import IonSchedule.Proofs.Grouping
import IonSchedule.Proofs.ReadNumbers
import IonSchedule.Proofs.ScheduledValidity
import IonSchedule.Proofs.CommandRuns
import IonSchedule.Proofs.StableCommand
import IonSchedule.Proofs.FailedCalls
import IonSchedule.Proofs.SourceChains
import IonSchedule.Proofs.DeclaredRegisters
import IonSchedule.Proofs.Relabelling
import IonSchedule.Proofs.UsageDependence
import IonSchedule.Proofs.Landing
import IonSchedule.Proofs.NeighbourExchange
import IonSchedule.Proofs.GateLayers
import IonSchedule.Proofs.SoleBlock
import IonSchedule.Proofs.MacroTermination
import IonSchedule.Proofs.DeclaredCircuits
import IonSchedule.Proofs.BuilderReplay
import IonSchedule.Proofs.PassRuns
import IonSchedule.Proofs.JaqalSuccess
import IonSchedule.Proofs.ScheduleCounts
import IonSchedule.Proofs.IndexRanges
import IonSchedule.Proofs.PlacedAgain
import IonSchedule.Proofs.ReachedTimelines
