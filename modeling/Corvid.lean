import Corvid.Ast.Effect
import Corvid.Lib.Fold
import Corvid.Lib.Keyed
import Corvid.Lib.Persist
import Corvid.Lib.Result
import Corvid.Lib.Text
import Corvid.Effects.Compose
import Corvid.Effects.Config
import Corvid.Effects.Monotone
import Corvid.Effects.Names
import Corvid.Effects.Permutation
import Corvid.Effects.Registry
import Corvid.Runtime.Json
import Corvid.Replay.Trace
import Corvid.Runtime.Errors
import Corvid.Runtime.Llm
import Corvid.Replay.Cursor
import Corvid.Replay.Source
import Corvid.Replay.Strict
import Corvid.Runtime.Catalog
import Corvid.Runtime.Runtime
import Corvid.Runtime.Session
import Corvid.Replay.RoundTrip
import Corvid.Lib.Loop
import Corvid.Vm.Collector
import Corvid.Vm.Trial
import Corvid.Vm.Heap
import Corvid.Vm.Safety
import Corvid.Vm.Counts
import Corvid.Lib.Store
import Corvid.Lib.Pool
import Corvid.Queue.Model
import Corvid.Queue.Access
import Corvid.Queue.Runtime
import Corvid.Queue.Scheduler
import Corvid.Queue.Rows
import Corvid.Queue.Lifecycle
import Corvid.Queue.Approval
import Corvid.Queue.Lease
import Corvid.Queue.Recovery
import Corvid.Approvals.Model
import Corvid.Approvals.Runtime
import Corvid.Approvals.Rows
import Corvid.Approvals.Decisions
import Corvid.Approvals.Isolation
import Corvid.Lib.Probing
import Corvid.Lib.Mark
import Corvid.Native.Word
import Corvid.Native.Heap
import Corvid.Native.Weak
import Corvid.Native.Counts
import Corvid.Native.Allocation
import Corvid.Native.Collector
import Corvid.Native.Runs
import Corvid.Native.Garbage
import Corvid.Lib.Rows
import Corvid.Auth.Model
import Corvid.Auth.Runtime
import Corvid.Auth.Access
import Corvid.Auth.Revocation
import Corvid.Auth.OAuth
import Corvid.Lib.Versions
import Corvid.Stores.Model
import Corvid.Stores.Backends
import Corvid.Stores.Updates
import Corvid.Runtime.Redaction
import Corvid.Lib.Split
import Corvid.TraceDiff.Abi
import Corvid.TraceDiff.Diff
import Corvid.TraceDiff.Attribution
import Corvid.TraceDiff.Skipping
import Corvid.Syntax.Token
import Corvid.Syntax.Lexer
import Corvid.Syntax.Layout
import Corvid.Syntax.LineEnds
import Corvid.Syntax.Simulation
import Corvid.Syntax.Insensitive
import Corvid.Syntax.Bytes
import Corvid.Syntax.Cursor
import Corvid.Syntax.Boundaries
import Corvid.Queue.Retries
import Corvid.Queue.WorkerPool
import Corvid.Queue.Handles
import Corvid.Connectors.Refresh
import Corvid.Lib.Trace
import Corvid.Runtime.GroundedHandles
import Corvid.Types.Weak
import Corvid.Types.Path
import Corvid.Types.Upgrades
import Corvid.Interp.Value
import Corvid.Interp.Ir
import Corvid.Interp.Machine
import Corvid.Interp.Prompts
import Corvid.Interp.Eval
import Corvid.Interp.Runs
import Corvid.Lib.Comparison
import Corvid.Interp.Pairing
import Corvid.Interp.PairedPrompts
import Corvid.Interp.PairedEval
import Corvid.Interp.Transparent
import Corvid.Lib.Tasks
import Corvid.Interp.Tests
import Corvid.Interp.Mocks
import Corvid.Queue.FireOnce
import Corvid.Queue.Deadlines
import Corvid.Lib.Blocks
import Corvid.Codegen.Cranelift
import Corvid.Codegen.Lowering
import Corvid.Lib.Handler
import Corvid.Codegen.Terms
import Corvid.Codegen.Operators
import Corvid.Codegen.Parity
import Corvid.Stores.LegalHold
import Corvid.Lib.Utf8
import Corvid.TraceDiff.Splices
import Corvid.TraceDiff.Delta
import Corvid.TraceDiff.Receipt
import Corvid.TraceDiff.Keys
import Corvid.TraceDiff.Gate
import Corvid.Lib.Chains
import Corvid.Runtime.Lineage
import Corvid.Runtime.Rag
import Corvid.Lib.Like
import Corvid.Runtime.Chunking
import Corvid.Runtime.Retrieval
import Corvid.Runtime.FilterOrder
import Corvid.Lib.Calls
import Corvid.Queue.LoopUsage
import Corvid.Lib.FixedWindow
import Corvid.Connectors.Runtime
import Corvid.Connectors.Declared
import Corvid.Auth.Audit
import Corvid.Lib.Worklist
import Corvid.Ast.Syntax
import Corvid.Resolve.Scope
import Corvid.Resolve.Resolver
import Corvid.Resolve.DepGraph
import Corvid.Resolve.Uses
import Corvid.Resolve.Exact
import Corvid.Lib.Template
import Corvid.Lib.Substring
import Corvid.Interp.Rendering
import Corvid.Lib.Equations
import Corvid.Codegen.Dataflow
import Corvid.Lib.Utf8Order
import Corvid.Lib.JsonString
import Corvid.Native.Strings
import Corvid.Types.Case
import Corvid.Types.Labels
import Corvid.Lib.SortedMap
import Corvid.Conv.Model
import Corvid.Conv.Convert
import Corvid.Conv.Reading
import Corvid.Conv.RoundTrip
import Corvid.Lib.Settle
import Corvid.Lib.Interleave
import Corvid.Interp.Streams.Channels
import Corvid.Interp.Streams.Collect
import Corvid.Interp.Streams.Fan
import Corvid.Replay.Dispatch
import Corvid.Replay.Reading
import Corvid.Native.Drift
import Corvid.Native.Watch
import Corvid.Types.Reachability
import Corvid.Codegen.ScopeReduce
import Corvid.Replay.MutatedRun
import Corvid.Effects.Budget
import Corvid.Lib.Parsing
import Corvid.Syntax.Expr
import Corvid.Syntax.Grammar
