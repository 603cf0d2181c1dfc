import CCache.Lib.ByteMemory
import CCache.Lib.CString
import CCache.Lib.Runs
import CCache.Lib.Extents
import CCache.Lib.KeyValue
import CCache.Lib.Crash
import CCache.Lib.Linearization
import CCache.Lib.Sha2
import CCache.Lib.SharedBuffer
import CCache.Cache.Values
import CCache.Cache.CrashInconsistency
import CCache.Ipc.Exclusion
import CCache.Ipc.Delivery
import CCache.Ipc.Handshake
import CCache.Ipc.Tokens
import CCache.Ipc.Responses
import CCache.Server.Hasher
import CCache.Server.RouteHash
import CCache.Server.Router
import CCache.Server.Segment
import CCache.Server.Handlers
import CCache.Server.Dispatch
import CCache.Server.RoundTrip
import CCache.Cache.Packing
import CCache.Cache.Checksum
import CCache.Cache.Honesty
import CCache.Cache.Locking
import CCache.Server.Answers
import CCache.Server.Bounds
import CCache.Server.Replies
import CCache.Server.Leftovers
import CCache.Server.Namespaces
import CCache.Server.Uninitialised
import CCache.Cache.Views
import CCache.Cache.Untrusted
import CCache.Cache.CrashSafety
import CCache.Cache.Freezing
import CCache.Cache.Store
import CCache.Server.EndToEnd
import CCache.Server.ResponseSize
import CCache.Ipc.Progress
import CCache.Ipc.Lifecycle
import CCache.Ipc.Provenance
import CCache.Ipc.Bytes
import CCache.Ipc.Segments
