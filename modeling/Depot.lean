import Depot.Channel.Offload
import Depot.Channel.Registry
import Depot.Channel.Source
import Depot.Counters
import Depot.Digest
import Depot.Fault.Description
import Depot.Json.Parser
import Depot.Json.Printer
import Depot.Listing.Timeline
import Depot.Logging.Setup
import Depot.Logging.Template
import Depot.Message
import Depot.Pump.Timeline
import Depot.Settings.Assembly
import Depot.Storage.Disk.Backend
import Depot.Storage.Facade
import Depot.Storage.Memory.Backend
import Depot.Yaml.Document
import Depot.Proofs.Listing.Ledger
import Depot.Proofs.Listing.Family
import Depot.Proofs.Listing.Record
import Depot.Proofs.Listing.Turn
import Depot.Proofs.Listing.Moves
import Depot.Proofs.Listing.Endings
import Depot.Proofs.Listing.Completeness
import Depot.Proofs.Listing.Breadth
import Depot.Proofs.Listing.Limit
import Depot.Proofs.Listing.Marking
import Depot.Proofs.Listing.Raising
import Depot.Proofs.Listing.Watch
import Depot.Proofs.Listing.Passage
import Depot.Proofs.Listing.Upsets
import Depot.Proofs.Listing.Cost
import Depot.Proofs.Listing.Failures
import Depot.Proofs.Listing.Narrowing
import Depot.Proofs.Path
import Depot.Proofs.Path.NormalForm
import Depot.Proofs.Path.Combination
import Depot.Proofs.Path.Ancestry
import Depot.Proofs.Action
import Depot.Proofs.Storage.Change
import Depot.Proofs.Memory.Layout
import Depot.Proofs.Memory.Capacity
import Depot.Proofs.Memory.Level
import Depot.Proofs.Storage.Interleaving
import Depot.Proofs.Memory.Interleaving
import Depot.Proofs.Listing.Native
import Depot.Proofs.Memory.Recursion
import Depot.Proofs.Memory.Narrowing
import Depot.Proofs.Json.Written
import Depot.Proofs.Disk.Tree
import Depot.Proofs.Disk.Call
import Depot.Proofs.Disk.Mirror
import Depot.Proofs.Disk.Change
import Depot.Proofs.Disk.Level
import Depot.Proofs.Disk.Service
import Depot.Proofs.Disk.Walk
import Depot.Proofs.Storage.Interchange
import Depot.Proofs.Channel.Call
import Depot.Proofs.Channel.Standing
import Depot.Proofs.Channel.Visibility
import Depot.Proofs.Pump.Run
import Depot.Proofs.Pump.Trace
import Depot.Proofs.Pump.Cancellation
import Depot.Proofs.Memory.History
import Depot.Proofs.Offload.Course
import Depot.Proofs.Offload.References
import Depot.Proofs.Offload.Alone
import Depot.Proofs.Offload.RoundTrip
import Depot.Proofs.Listing.Course
import Depot.Proofs.Listing.Stock
import Depot.Proofs.Listing.Books
import Depot.Proofs.Listing.Discipline
import Depot.Proofs.Listing.Supply
import Depot.Proofs.Listing.Termination
import Depot.Proofs.Channel.DeadLetter
import Depot.Proofs.Memory.Restore
import Depot.Proofs.Disk.Refusal
import Depot.Proofs.Disk.Outcome
import Depot.Proofs.Disk.Upkeep
import Depot.Proofs.Disk.Contents
import Depot.Proofs.Disk.Display
import Depot.Proofs.Disk.Script
import Depot.Proofs.Disk.Trouble
import Depot.Proofs.Disk.Litter
import Depot.Proofs.Disk.Interruption
import Depot.Proofs.Storage.Deletion
import Depot.Proofs.Listing.Origin
import Depot.Proofs.Storage.Spelling
import Depot.Proofs.Memory.Spelling
import Depot.Proofs.Disk.Containment
import Depot.Proofs.Disk.Twins
import Depot.Proofs.Disk.Sidecar
import Depot.Proofs.Disk.Annotation
import Depot.Proofs.Disk.Failure
import Depot.Proofs.Disk.Recovery
import Depot.Proofs.Channel.Lifecycle
import Depot.Proofs.Decimal.Double
import Depot.Proofs.Channel.Span
import Depot.Proofs.Settings.Usable
import Depot.Proofs.Channel.Batch
import Depot.Proofs.Memory.BulkDeletion
import Depot.Proofs.Pump.Roster
import Depot.Proofs.Pump.Ending
import Depot.Proofs.Pump.Backoff
import Depot.Proofs.Memory.Children
import Depot.Proofs.Logging.Line
import Depot.Proofs.Logging.Succession
