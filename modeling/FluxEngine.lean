import FluxEngine.Lib.OrderedDict
import FluxEngine.Lib.Transition
import FluxEngine.Lib.Interleaving
import FluxEngine.Lib.Metering
import FluxEngine.Lib.Liveness
import FluxEngine.Lib.Upkeep
import FluxEngine.Lib.Tickets
import FluxEngine.Lib.Ledger
import FluxEngine.Lib.Fifo
import FluxEngine.Lib.Expiring
import FluxEngine.Lib.SlidingWindow
import FluxEngine.Lib.WorkSharing
import FluxEngine.Lib.Replacement
import FluxEngine.Lib.Rows
import FluxEngine.Lib.PrefixCode
import FluxEngine.Lib.Utf8
import FluxEngine.Lib.Split
import FluxEngine.Lib.Json
import FluxEngine.Lib.JsonReader
import FluxEngine.Engine.KvUtils
import FluxEngine.Engine.Sequence
import FluxEngine.Engine.Tokenizer
import FluxEngine.Engine.Batching
import FluxEngine.Engine.CachedEngine
import FluxEngine.Engine.BlockPool
import FluxEngine.Engine.PrefixCache
import FluxEngine.Engine.Scheduler
import FluxEngine.Engine.System
import FluxEngine.Engine.ModelCalls
import FluxEngine.Engine.Worker
import FluxEngine.Engine.FakeLm
import FluxEngine.Engine.PoolLedger
import FluxEngine.Engine.PrefixPins
import FluxEngine.Engine.PrefixLookup
import FluxEngine.Engine.PrefixAccounts
import FluxEngine.Engine.Eviction
import FluxEngine.Engine.Insertion
import FluxEngine.Engine.SchedulerLedger
import FluxEngine.Engine.Causal
import FluxEngine.Engine.Stepwise
import FluxEngine.Engine.Positions
import FluxEngine.Engine.FakeModel
import FluxEngine.Engine.BatchRows
import FluxEngine.Engine.Sampler
import FluxEngine.Engine.NaiveEngine
import FluxEngine.Engine.Solo
import FluxEngine.Engine.AdmissionRace
import FluxEngine.Serving.Step
import FluxEngine.Serving.Frames
import FluxEngine.Serving.AdmissionOrder
import FluxEngine.Serving.WaitingQueue
import FluxEngine.Serving.LookupCounters
import FluxEngine.Serving.Books
import FluxEngine.Serving.BookSteps
import FluxEngine.Serving.Ownership
import FluxEngine.Serving.Charging
import FluxEngine.Serving.LateBinding
import FluxEngine.Serving.Progress
import FluxEngine.Serving.FirstFit
import FluxEngine.Serving.FailedAllocation
import FluxEngine.Serving.PrefixSoundness
import FluxEngine.Serving.PrefixRefs
import FluxEngine.Serving.StoredPrompt
import FluxEngine.Serving.Life
import FluxEngine.Serving.Pace
import FluxEngine.Serving.SoloAgreement
import FluxEngine.Serving.Queue
import FluxEngine.Serving.PrefixMoves
import FluxEngine.Serving.CacheLengths
import FluxEngine.Serving.Walk
import FluxEngine.Serving.Labels
import FluxEngine.Serving.Crew
import FluxEngine.Serving.WorkerRules
import FluxEngine.Serving.WorkerParts
import FluxEngine.Serving.Intake
import FluxEngine.Serving.ContinuousRound
import FluxEngine.Serving.QueuedRound
import FluxEngine.Serving.Leftovers
import FluxEngine.Serving.Workers
import FluxEngine.Serving.AbortDelay
import FluxEngine.Serving.Sites
import FluxEngine.Serving.PrefixSavings
import FluxEngine.Serving.SavingsReported
import FluxEngine.Serving.ModelCaches
import FluxEngine.Serving.Containment
import FluxEngine.Serving.Places
import FluxEngine.Serving.Seniority
import FluxEngine.Serving.Starvation
import FluxEngine.Serving.Undisturbed
import FluxEngine.Serving.Actions
import FluxEngine.Serving.TokenCount
import FluxEngine.Serving.Capacity
import FluxEngine.Serving.NaiveService
import FluxEngine.Server.Sse
import FluxEngine.Server.Streaming
import FluxEngine.Server.Deltas
import FluxEngine.Server.Routes
import FluxEngine.Server.ResultStream
import FluxEngine.Server.Responses
import FluxEngine.Server.Admin
import FluxEngine.Server.Visibility
import FluxEngine.Server.LiveRates
import FluxEngine.Server.Requests
import FluxEngine.Server.Deployment
import FluxEngine.Server.RunningBatch
import FluxEngine.Server.ControlPlane
import FluxEngine.Server.RateLimit
import FluxEngine.Server.Handlers
import FluxEngine.Server.JobStatus
import FluxEngine.Server.Attendance
import FluxEngine.Server.Payloads
import FluxEngine.Dashboard.Sse
import FluxEngine.Dashboard.ReadBack
import FluxEngine.Bench.LoadGen
import FluxEngine.Bench.StreamClient
import FluxEngine.Bench.ClosedLoop
