import TrigEmitKafka.Support.Slots
import TrigEmitKafka.Support.Settings
import TrigEmitKafka.Support.Prog
import TrigEmitKafka.Support.LockMachine
import TrigEmitKafka.Support.LockLogic
import TrigEmitKafka.Support.Progress
import TrigEmitKafka.Support.Atomicity
import TrigEmitKafka.Support.Track
import TrigEmitKafka.Support.Duties
import TrigEmitKafka.Support.Stream
import TrigEmitKafka.Support.Heap
import TrigEmitKafka.Support.Ledger
import TrigEmitKafka.Support.DebVersion
import TrigEmitKafka.Source.Basic
import TrigEmitKafka.Source.Records
import TrigEmitKafka.Source.Calls
import TrigEmitKafka.Source.Engine
import TrigEmitKafka.Source.Table
import TrigEmitKafka.Source.Buffers
import TrigEmitKafka.Source.Commands
import TrigEmitKafka.Source.Statements
import TrigEmitKafka.Source.Version
import TrigEmitKafka.Spec.Registry
import TrigEmitKafka.Spec.Atomic
import TrigEmitKafka.Rules.Inv
import TrigEmitKafka.Rules.Throttle
import TrigEmitKafka.Rules.Lifecycle
import TrigEmitKafka.Rules.Ops
import TrigEmitKafka.Rules.World
import TrigEmitKafka.Rules.Duties
import TrigEmitKafka.Rules.Engine
import TrigEmitKafka.Rules.Helpers
import TrigEmitKafka.Rules.Table
import TrigEmitKafka.Rules.Connection
import TrigEmitKafka.Rules.Readers
import TrigEmitKafka.Rules.Rendering
import TrigEmitKafka.Rules.Calls
import TrigEmitKafka.Rules.Feeding
import TrigEmitKafka.Rules.Turns
import TrigEmitKafka.Rules.Quick
import TrigEmitKafka.Rules.Granted
import TrigEmitKafka.Rules.Confinement
import TrigEmitKafka.Rules.Writers
import TrigEmitKafka.Rules.Polling
import TrigEmitKafka.Rules.Serving
import TrigEmitKafka.Rules.Sessions
import TrigEmitKafka.Results.Safety
import TrigEmitKafka.Results.Confinement
import TrigEmitKafka.Results.Progress
import TrigEmitKafka.Results.Polling
import TrigEmitKafka.Results.Lifecycle
import TrigEmitKafka.Results.Accounting
import TrigEmitKafka.Results.Failures
import TrigEmitKafka.Results.Frozen
import TrigEmitKafka.Results.Throttle
import TrigEmitKafka.Results.HeldBack
import TrigEmitKafka.Results.Info
import TrigEmitKafka.Results.Sending
import TrigEmitKafka.Results.Configuration
import TrigEmitKafka.Results.Snapshot
import TrigEmitKafka.Results.Arguments
import TrigEmitKafka.Results.Statements
import TrigEmitKafka.Results.Registry
import TrigEmitKafka.Results.Atomic
import TrigEmitKafka.Results.Growth
import TrigEmitKafka.Results.Unload
import TrigEmitKafka.Results.Statistics
import TrigEmitKafka.Results.SendRace
import TrigEmitKafka.Results.Version
