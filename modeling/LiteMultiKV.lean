import LiteMultiKV.Cache.Accounting
import LiteMultiKV.Cache.Arc
import LiteMultiKV.Cache.ArcBounds
import LiteMultiKV.Cache.ArcRuns
import LiteMultiKV.Cache.Lfu
import LiteMultiKV.Cache.LfuEntries
import LiteMultiKV.Cache.LfuHeap
import LiteMultiKV.Cache.Lru
import LiteMultiKV.Cache.LruPointers
import LiteMultiKV.Cache.LruRecency
import LiteMultiKV.Cache.Manager
import LiteMultiKV.Cache.Report
import LiteMultiKV.Cache.Trends
import LiteMultiKV.Core.BinaryHeap
import LiteMultiKV.Core.CFloat
import LiteMultiKV.Core.CText
import LiteMultiKV.Core.Chain
import LiteMultiKV.Core.Delimited
import LiteMultiKV.Core.Dictionary
import LiteMultiKV.Core.Disk
import LiteMultiKV.Core.DoublyLinked
import LiteMultiKV.Core.HeapTrace
import LiteMultiKV.Core.History
import LiteMultiKV.Core.LinkedTree
import LiteMultiKV.Core.Recency
import LiteMultiKV.Core.RedBlack
import LiteMultiKV.Core.Run
import LiteMultiKV.Core.Segments
import LiteMultiKV.Core.Sessions
import LiteMultiKV.Core.TreeWalks
import LiteMultiKV.Core.Windows
import LiteMultiKV.Engine.Array
import LiteMultiKV.Engine.Calls
import LiteMultiKV.Engine.Failures
import LiteMultiKV.Engine.Families
import LiteMultiKV.Engine.Hash
import LiteMultiKV.Engine.HashMemory
import LiteMultiKV.Engine.Memory
import LiteMultiKV.Engine.RbTree
import LiteMultiKV.Engine.RbTreeDelete
import LiteMultiKV.Engine.RbTreeInsert
import LiteMultiKV.Engine.RbTreeMap
import LiteMultiKV.Engine.RbTreeShape
import LiteMultiKV.Engine.RbTreeUses
import LiteMultiKV.Engine.Shaped
import LiteMultiKV.Engine.Skip
import LiteMultiKV.Engine.SkipMap
import LiteMultiKV.Engine.Vector
import LiteMultiKV.Engine.VectorBounds
import LiteMultiKV.Engine.VectorContents
import LiteMultiKV.Engine.VectorFaults
import LiteMultiKV.Engine.VectorGraph
import LiteMultiKV.Engine.VectorSearch
import LiteMultiKV.Engine.VectorStore
import LiteMultiKV.Engine.VectorUpdates
import LiteMultiKV.Network.Completion
import LiteMultiKV.Network.EventLoop
import LiteMultiKV.Network.Framing
import LiteMultiKV.Network.Proactor
import LiteMultiKV.Network.Reactor
import LiteMultiKV.Persist.Crash
import LiteMultiKV.Persist.Decode
import LiteMultiKV.Persist.Interleave
import LiteMultiKV.Persist.Ownership
import LiteMultiKV.Persist.Rdb
import LiteMultiKV.Persist.RoundTrip
import LiteMultiKV.Persist.Save
import LiteMultiKV.Protocol.Boundary
import LiteMultiKV.Protocol.Coherence
import LiteMultiKV.Protocol.Dispatch
import LiteMultiKV.Protocol.Durable
import LiteMultiKV.Protocol.KeyValue
import LiteMultiKV.Protocol.LoneCommands
import LiteMultiKV.Protocol.Messages
import LiteMultiKV.Protocol.Namespaces
import LiteMultiKV.Protocol.Replies
import LiteMultiKV.Protocol.Requests
import LiteMultiKV.Protocol.Service
import LiteMultiKV.Protocol.StoredValues
import LiteMultiKV.Protocol.Tokens
import LiteMultiKV.Protocol.VectorTenants
import LiteMultiKV.Refinement.Engines
import LiteMultiKV.Refinement.Equivalence
import LiteMultiKV.Refinement.RbTree
import LiteMultiKV.Refinement.Skip
import LiteMultiKV.Refinement.Tables
