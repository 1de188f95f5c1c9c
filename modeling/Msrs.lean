import Msrs.Lib.Prog
import Msrs.Lib.Interleave
import Msrs.Lib.Stages
import Msrs.Lib.Progress
import Msrs.Lib.Threads
import Msrs.Lib.Endings
import Msrs.Lib.Panics
import Msrs.Lib.Fifo
import Msrs.Lib.Mealy
import Msrs.Lib.Keyed
import Msrs.Lib.Framing
import Msrs.Lib.BestEffort
import Msrs.Lib.Statig
import Msrs.Cu
import Msrs.Core.Effects
import Msrs.Core.FsmTask
import Msrs.Core.Adapters
import Msrs.Core.Handlers
import Msrs.Core.Replay
import Msrs.Core.Log
import Msrs.Core.Gate
import Msrs.Core.Gaps
import Msrs.Core.Rt
import Msrs.Core.Pinning
import Msrs.Transport.Driver
import Msrs.Transport.Clock
import Msrs.Transport.Tasks
import Msrs.Transport.Registry
import Msrs.Transport.Construct
import Msrs.Transport.Drain
import Msrs.Runtime.Dag
import Msrs.Runtime.Threads
import Msrs.Runtime.Shutdown
import Msrs.Runtime.Pipeline
import Msrs.Runtime.Timed
import Msrs.Runtime.Messages
import Msrs.Runtime.Service
import Msrs.Runtime.Faults
import Msrs.Runtime.Chain
import Msrs.Runtime.Drains
import Msrs.Runtime.Outbound
import Msrs.Runtime.Delivery
import Msrs.Runtime.Brackets
import Msrs.Runtime.Backpressure
import Msrs.Runtime.Batching
import Msrs.Runtime.Attempts
import Msrs.Runtime.LogStream
import Msrs.Watchdog.Machine
import Msrs.Watchdog.Spec
import Msrs.Watchdog.EndToEnd
import Msrs.Watchdog.Control
import Msrs.Watchdog.Pulse
import Msrs.Watchdog.Alarms
import Msrs.Watchdog.Live
import Msrs.Watchdog.Main
import Msrs.Echo.Machine
import Msrs.Echo.EndToEnd
import Msrs.Echo.Feeder
import Msrs.Echo.Live
import Msrs.Echo.Main
import Msrs.Echo.Answered
