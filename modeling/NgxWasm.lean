import NgxWasm.Shm.QueueFifo
import NgxWasm.Shm.KvCas
import NgxWasm.Shm.KvSnapshot
import NgxWasm.Shm.KvMap
import NgxWasm.ProxyWasm.ContextChain
import NgxWasm.ProxyWasm.PropertyOwner
import NgxWasm.ProxyWasm.PairsRoundTrip
import NgxWasm.ProxyWasm.HostProperties
import NgxWasm.ProxyWasm.HostPropertyMap
import NgxWasm.ProxyWasm.InstanceScan
import NgxWasm.ProxyWasm.SharedInstanceDispatch
import NgxWasm.ProxyWasm.ShimHeaders
import NgxWasm.ProxyWasm.Tick
import NgxWasm.ProxyWasm.DispatchOnce
import NgxWasm.ProxyWasm.ResumeEnd
import NgxWasm.Http.BodyOffered
import NgxWasm.Http.ResponseOrder
import NgxWasm.Http.DispatchUnique
import NgxWasm.Wavm.LiftBounds
import NgxWasm.ProxyWasm.OutPointers
import NgxWasm.Http.UpstreamAttempts
import NgxWasm.ProxyWasm.HeaderReads
import NgxWasm.ProxyWasm.HeaderRemoved
import NgxWasm.Access.Decision
import NgxWasm.Access.Reached
import NgxWasm.Socket.Truncated
import NgxWasm.Access.Resolvable
import NgxWasm.Lua.ThreadRuns
import NgxWasm.Lua.ResolverOnce
import NgxWasm.Metrics.Reload
import NgxWasm.Http.RequestFraming
import NgxWasm.Http.RespEof
import NgxWasm.Http.SetBuffer
import NgxWasm.Http.Escape
import NgxWasm.Http.ConnectionHeader
import NgxWasm.Http.ContentLength
import NgxWasm.Http.LocalResponse
import NgxWasm.Http.LocalResponseSent
import NgxWasm.Http.MultiHeaders
import NgxWasm.ProxyWasm.ResolvedName
import NgxWasm.Wasm.ChainAppend
import NgxWasm.Shm.QueueAsserts
import NgxWasm.Shm.IterateKeys
import NgxWasm.Shm.KvRecency
import NgxWasm.Metrics.GaugeLast
import NgxWasm.Metrics.DefineRuns
import NgxWasm.Metrics.RecordTarget
import NgxWasm.ProxyWasm.PairsBounds
import NgxWasm.ProxyWasm.BufferSlice
import NgxWasm.Http.EndOfStream
import NgxWasm.Wasi.Environ
import NgxWasm.Http.Upstreams
import NgxWasm.Wasm.FilterIds
import NgxWasm.Metrics.DefineBuffers
import NgxWasm.Wasm.OpsResume
import NgxWasm.Shm.ZoneLocks
import NgxWasm.Access.HostVerdict
import NgxWasm.ProxyWasm.UpstreamFrame
import NgxWasm.Http.ClearedPointers
import NgxWasm.Lib.Upsert
import NgxWasm.ProxyWasm.HeaderPairs
import NgxWasm.Lib.Ledger
import NgxWasm.Wavm.Vm
import NgxWasm.Wavm.VmRuns
import NgxWasm.Wavm.VmLinks
import NgxWasm.Wavm.VmBindings
import NgxWasm.Wavm.VmTeardown
import NgxWasm.Wavm.Calls
import NgxWasm.Wavm.CallRuns
import NgxWasm.Wavm.Instances
import NgxWasm.Socket.Tcp
import NgxWasm.Socket.TcpRuns
import NgxWasm.Wasi.FdWrite
import NgxWasm.Metrics.Counters
import NgxWasm.Http.Postpone
import NgxWasm.Shm.ZoneConf
import NgxWasm.Wavm.CallValues
