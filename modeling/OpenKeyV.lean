import OpenKeyV.Library.Machine
import OpenKeyV.Library.KeyedMap
import OpenKeyV.Library.Decimal
import OpenKeyV.Library.CursorReader
import OpenKeyV.Change
import OpenKeyV.Protocol
import OpenKeyV.Cas
import OpenKeyV.Value.RoundTrip
import OpenKeyV.Entry.Exact
import OpenKeyV.Utils.Identities
import OpenKeyV.Utils.PythonCompound
import OpenKeyV.S3.Transport
import OpenKeyV.Postgres.Gaps
import OpenKeyV.Postgres.Liveness
import OpenKeyV.Postgres.CommitOrder
import OpenKeyV.Redis.Completeness
import OpenKeyV.Redis.Envelopes
import OpenKeyV.Redis.Gaps
import OpenKeyV.Redis.Resumption
import OpenKeyV.Memory.Cancellation
import OpenKeyV.Memory.ChangeStream
import OpenKeyV.Memory.Capacity
import OpenKeyV.Memory.Conditional
import OpenKeyV.Memory.Executor
import OpenKeyV.Memory.SnapshotPages
import OpenKeyV.Memory.LiveRuns
import OpenKeyV.Memory.Expired
import OpenKeyV.Cleanup.Freshness
import OpenKeyV.Wrapper.Lifetimes
import OpenKeyV.Wrapper.Coherence
import OpenKeyV.Memory.Lookups
import OpenKeyV.Memory.ThreadsAlone
import OpenKeyV.Wrapper.Transparency
import OpenKeyV.Wrapper.Multiplex
import OpenKeyV.Redis.Registry
import OpenKeyV.Sql.Enumeration
import OpenKeyV.Mongo.Uniqueness
import OpenKeyV.Search.OpenSearch
import OpenKeyV.Entry.Lifetime
import OpenKeyV.Redis.NativeExpiry
import OpenKeyV.Memcached.Deadlines
import OpenKeyV.Memory.ReportedTtl
import OpenKeyV.Memory.SnapshotOutcome
import OpenKeyV.Wrapper.RoutedRuns
import OpenKeyV.Wrapper.Prefix
import OpenKeyV.Python.Envelopes
import OpenKeyV.Python.TtlClamp
import OpenKeyV.Python.DocumentCodec
import OpenKeyV.Memory.Regions
import OpenKeyV.Wrapper.InvalidRoutes
import OpenKeyV.RocksDB.Store
import OpenKeyV.Library.Scan
import OpenKeyV.Enumeration
import OpenKeyV.Wrapper.MergedNames
import OpenKeyV.RocksDB.Enumeration
import OpenKeyV.Limits
import OpenKeyV.Memory.Observers
import OpenKeyV.Library.TopKeys
import OpenKeyV.Memory.Eviction
import OpenKeyV.Memory.PutMany
import OpenKeyV.Library.LastWrite
import OpenKeyV.Sql.Batches
import OpenKeyV.DynamoDB.Requests
import OpenKeyV.DynamoDB.Service
import OpenKeyV.DynamoDB.BatchReads
import OpenKeyV.DynamoDB.BatchWrites
import OpenKeyV.DynamoDB.Batches
import OpenKeyV.Library.Bisection
import OpenKeyV.Python.Text
import OpenKeyV.Utils.PythonSanitize
import OpenKeyV.Utils.PythonSanitization
import OpenKeyV.Library.Noted
import OpenKeyV.Value.Demands
import OpenKeyV.Value.Json
import OpenKeyV.Utils.Sanitize
import OpenKeyV.FileTree.Components
import OpenKeyV.PhysicalNames
import OpenKeyV.FileTree.Disk
import OpenKeyV.FileTree.Store
import OpenKeyV.FileTree.History
import OpenKeyV.FileTree.Totality
import OpenKeyV.FileTree.Runs
import OpenKeyV.Library.Guarded
import OpenKeyV.Cleanup.Guards
import OpenKeyV.Postgres.Requests
import OpenKeyV.Postgres.Cleanup
import OpenKeyV.DynamoDB.Cleanup
import OpenKeyV.Cleanup.Safety
import OpenKeyV.Search.IndexNames
import OpenKeyV.Library.Wildcard
import OpenKeyV.Search.Elasticsearch
import OpenKeyV.Search.ElasticsearchCluster
import OpenKeyV.Search.Isolation
import OpenKeyV.Library.Allowed
import OpenKeyV.Search.ElasticsearchDocuments
import OpenKeyV.Search.ElasticsearchRuns
import OpenKeyV.Library.Dict
import OpenKeyV.Python.StoreContract
import OpenKeyV.Python.PassthroughCache
import OpenKeyV.Python.CachedCopies
import OpenKeyV.Python.CachedReads
import OpenKeyV.Wrapper.Compression
import OpenKeyV.Wrapper.LimitSize
import OpenKeyV.Wrapper.Stacks
import OpenKeyV.Library.Trusting
import OpenKeyV.Redis.Conditional
import OpenKeyV.Sled.Calls
import OpenKeyV.Wrapper.MemoryContract
