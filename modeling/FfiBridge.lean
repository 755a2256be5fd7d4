import FfiBridge.Foundation.Effect
import FfiBridge.Foundation.Component
import FfiBridge.Foundation.Execution
import FfiBridge.Foundation.Arena
import FfiBridge.Foundation.LatestWrite
import FfiBridge.Foundation.Exchange
import FfiBridge.Foundation.Trade
import FfiBridge.Foundation.Simulation
import FfiBridge.Machine.Memory
import FfiBridge.Machine.Text
import FfiBridge.Machine.Utf8
import FfiBridge.Rust.ErrorCode
import FfiBridge.Rust.Memory
import FfiBridge.Rust.Ownership
import FfiBridge.Rust.Errors
import FfiBridge.Rust.Bridge
import FfiBridge.Rust.Profile
import FfiBridge.Rust.Callback
import FfiBridge.Ownership.Values
import FfiBridge.Ownership.ClientRuns
import FfiBridge.Ownership.Invocation
import FfiBridge.Ownership.InputAndResult
import FfiBridge.Panics.Boundary
import FfiBridge.Registry.Operations
import FfiBridge.Panics.Isolation
import FfiBridge.Panics.ErrorPath
import FfiBridge.Registry.Threads
import FfiBridge.Registry.SelfDeadlock
import FfiBridge.Registry.Refinement
import FfiBridge.Registry.Quiescence
import FfiBridge.Registry.Poisoned
import FfiBridge.Results.Contract
import FfiBridge.Go.Runtime
import FfiBridge.Go.Bridge
import FfiBridge.Go.Memory
import FfiBridge.Go.Callback
import FfiBridge.Go.Lengths
import FfiBridge.Go.TypedErrors
import FfiBridge.Go.Ownership
import FfiBridge.Go.Calls
import FfiBridge.Go.FreedBuffers
import FfiBridge.Ownership.ResultPath
import FfiBridge.Go.Names
import FfiBridge.Go.Finalizers
import FfiBridge.Go.Collector
import FfiBridge.Go.Allocation
import FfiBridge.Go.FreeOnce
import FfiBridge.Ownership.Representation
import FfiBridge.Ownership.Echo
import FfiBridge.Ownership.Contents
import FfiBridge.Go.Strings
import FfiBridge.Registry.RawWords
import FfiBridge.Foundation.Linearization
import FfiBridge.Registry.Table
import FfiBridge.Registry.Recorder
import FfiBridge.Registry.Linearization
import FfiBridge.Registry.Progress
import FfiBridge.Registry.Closures
import FfiBridge.Foundation.PrefixCode
import FfiBridge.Results.ErrorText
import FfiBridge.Foundation.Script
import FfiBridge.Foundation.Reference
import FfiBridge.Service.Handlers
import FfiBridge.Service.Invocations
import FfiBridge.Service.Store
import FfiBridge.Service.Calls
import FfiBridge.Service.JsonCalls
import FfiBridge.Service.Programs
import FfiBridge.Service.Collection
import FfiBridge.Foundation.Until
import FfiBridge.Panics.Builds
